import Mathlib.Data.List.TakeWhile
import MiniRuby.Proofs.Token.Line
import MiniRuby.Syntax.Printer

/-!
# S-expressions are told apart by their texts

An s-expression is a word, a quoted text, or a list.  Words have no blanks, parentheses or quotes in
them, a quoted text ends at the first quote that no backslash stands before, and a list at the
parenthesis that belongs to it.  So an s-expression can be read off from what starts with it
(`Sexp.text_append_inj`), and its text tells what it is (`Sexp.text_inj`).
-/

namespace MiniRuby

/-! ### Quoted text -/

namespace Text

variable {r r' : List Char} {c c' : Char} {n n' : Nat}

theorem hex_inj (h : hex n = hex n') : n = n' := by
  unfold hex at h
  induction n using Nat.strongRecOn generalizing n' with
  | ind n ih =>
      have digit {d d' : Nat} (hd : d < 16) (hd' : d' < 16) (same : d.digitChar = d'.digitChar) :
          d = d' := by
        have all : ∀ d d' : Fin 16, Nat.digitChar d = Nat.digitChar d' → d = d' := by decide
        exact congrArg Fin.val (all ⟨d, hd⟩ ⟨d', hd'⟩ same)
      rw [Nat.toDigits_eq_if (n := n) (by decide), Nat.toDigits_eq_if (n := n') (by decide)] at h
      split at h <;> rename_i small <;> split at h <;> rename_i small'
      · exact digit small small' (List.singleton_inj.mp h)
      · have := congrArg List.length h
        have := @Nat.length_toDigits_pos 16 (n' / 16)
        simp only [List.length_append, List.length_singleton] at *
        omega
      · have := congrArg List.length h
        have := @Nat.length_toDigits_pos 16 (n / 16)
        simp only [List.length_append, List.length_singleton] at *
        omega
      · have ⟨high, low⟩ := List.append_inj' h rfl
        have := ih (n / 16) (by omega) high
        have := digit (Nat.mod_lt _ (by decide)) (Nat.mod_lt _ (by decide))
          (List.singleton_inj.mp low)
        omega

theorem hex_ne_brace : ∀ c ∈ hex n, c ≠ Char.ofNat 0x7d := by
  unfold hex
  induction n using Nat.strongRecOn with
  | ind n ih =>
      have digit {d : Nat} (hd : d < 16) : d.digitChar ≠ Char.ofNat 0x7d := by
        have all : ∀ d : Fin 16, Nat.digitChar d ≠ Char.ofNat 0x7d := by decide
        exact all ⟨d, hd⟩
      intro c mem
      rw [Nat.toDigits_eq_if (by decide)] at mem
      split at mem <;> rename_i small
      · exact List.mem_singleton.mp mem ▸ digit small
      · rcases List.mem_append.mp mem with mem | mem
        · exact ih (n / 16) (by omega) c mem
        · exact List.mem_singleton.mp mem ▸ digit (Nat.mod_lt _ (by decide))

/-- The character that a backslash and a letter stand for in a listing. -/
def listed (letter : Char) : Char :=
  match letter with
  | 't' => '\t'
  | 'n' => '\n'
  | 'r' => '\r'
  | '0' => '\x00'
  | c => c

/-- How a character is written in a listing: after a backslash, by its number, or as it is. -/
theorem listingChar_cases (c : Char) :
    (∃ e, listingChar c = ['\\', e] ∧ listed e = c ∧ e ≠ 'u') ∨
    listingChar c = ['\\', 'u', Char.ofNat 0x7b] ++ hex c.toNat ++ [Char.ofNat 0x7d] ∨
    listingChar c = [c] ∧ c ≠ '\\' ∧ c ≠ '"' := by
  rcases eq_or_ne c '\t' with rfl | tab
  · exact .inl ⟨'t', rfl, rfl, by decide⟩
  rcases eq_or_ne c '\n' with rfl | feed
  · exact .inl ⟨'n', rfl, rfl, by decide⟩
  rcases eq_or_ne c '\r' with rfl | ret
  · exact .inl ⟨'r', rfl, rfl, by decide⟩
  rcases eq_or_ne c '\x00' with rfl | null
  · exact .inl ⟨'0', rfl, rfl, by decide⟩
  rcases eq_or_ne c '"' with rfl | quote
  · exact .inl ⟨'"', rfl, rfl, by decide⟩
  rcases eq_or_ne c '\\' with rfl | slash
  · exact .inl ⟨'\\', rfl, rfl, by decide⟩
  rw [listingChar, if_neg tab, if_neg feed, if_neg ret, if_neg null, if_neg quote, if_neg slash]
  split
  · exact .inr (.inr ⟨rfl, slash, quote⟩)
  · split
    · exact .inr (.inl rfl)
    · exact .inr (.inr ⟨rfl, slash, quote⟩)

theorem hex_append_inj (h : hex n ++ Char.ofNat 0x7d :: r = hex n' ++ Char.ofNat 0x7d :: r') :
    n = n' ∧ r = r' := by
  have digits (n : Nat) (r : List Char) :
      (hex n ++ Char.ofNat 0x7d :: r).takeWhile (· ≠ Char.ofNat 0x7d) = hex n := by
    rw [Lexer.takeWhile_append (by simp), List.takeWhile_eq_self_iff]
    simpa using fun c => hex_ne_brace c
  have same := congrArg (List.takeWhile (· ≠ Char.ofNat 0x7d)) h
  rw [digits, digits] at same
  rw [same] at h
  exact ⟨hex_inj same, List.tail_eq_of_cons_eq (List.append_cancel_left h)⟩

/-- The first character of a text can be read off from a listing. -/
theorem listingChar_append_inj (h : listingChar c ++ r = listingChar c' ++ r') :
    c = c' ∧ r = r' := by
  rcases listingChar_cases c with ⟨e, he, hc, hu⟩ | he | ⟨he, hs, -⟩ <;>
    rcases listingChar_cases c' with ⟨e', he', hc', hu'⟩ | he' | ⟨he', hs', -⟩ <;>
    rw [he, he'] at h
  · obtain ⟨rfl, rfl⟩ : e = e' ∧ r = r' := by simpa using h
    exact ⟨hc.symm.trans hc', rfl⟩
  · exact (hu (by simpa using (List.cons.inj (List.cons.inj h).2).1)).elim
  · exact (hs' (List.cons.inj h).1.symm).elim
  · exact (hu' (by simpa using (List.cons.inj (List.cons.inj h).2).1.symm)).elim
  · have tails : hex c.toNat ++ Char.ofNat 0x7d :: r = hex c'.toNat ++ Char.ofNat 0x7d :: r' := by
      simpa using h
    have ⟨same, rest⟩ := hex_append_inj tails
    exact ⟨Char.toNat_inj.mp same, rest⟩
  · exact (hs' (List.cons.inj h).1.symm).elim
  · exact (hs (List.cons.inj h).1).elim
  · exact (hs (List.cons.inj h).1).elim
  · exact List.cons.inj h

/-- The end of a listing is told from what comes before it. -/
theorem listingChar_ne_quote (c : Char) (r r' : List Char) : listingChar c ++ r ≠ '"' :: r' := by
  intro h
  rcases listingChar_cases c with ⟨e, he, -⟩ | he | ⟨he, -, hq⟩ <;> rw [he] at h
  · cases h
  · cases h
  · exact hq (List.cons.inj h).1

/-- **A quoted text is read off** from what starts with it. -/
theorem listing_append_inj {s t : String}
    (h : (listing s).toList ++ r = (listing t).toList ++ r') : s = t ∧ r = r' := by
  have chars : ∀ cs ds : List Char, cs.flatMap listingChar ++ '"' :: r =
      ds.flatMap listingChar ++ '"' :: r' → cs = ds ∧ r = r' := by
    intro cs
    induction cs with
    | nil =>
        intro ds h
        cases ds with
        | nil => exact ⟨rfl, (List.cons.inj h).2⟩
        | cons d ds =>
            rw [List.flatMap_cons, List.append_assoc] at h
            exact (listingChar_ne_quote _ _ _ h.symm).elim
    | cons c cs ih =>
        intro ds h
        cases ds with
        | nil =>
            rw [List.flatMap_cons, List.append_assoc] at h
            exact (listingChar_ne_quote _ _ _ h).elim
        | cons d ds =>
            rw [List.flatMap_cons, List.flatMap_cons, List.append_assoc, List.append_assoc] at h
            have ⟨first, h⟩ := listingChar_append_inj h
            have ⟨more, rest⟩ := ih ds h
            exact ⟨by rw [first, more], rest⟩
  have ⟨same, rest⟩ := chars s.toList t.toList (by simpa [listing] using h)
  exact ⟨String.toList_inj.mp same, rest⟩

end Text

/-! ### S-expressions -/

/-- A word, a quoted text, or a list. -/
inductive Sexp where
  | word (text : String)
  | quoted (text : String)
  | list (items : List Sexp)

/-- Whether a character belongs to no word. -/
def Sexp.isMark (c : Char) : Bool := c = ' ' || c = '(' || c = ')' || c = '"'

/-- Whether a text is a word. -/
def Sexp.IsWord (s : String) : Prop := s ≠ "" ∧ ∀ c ∈ s.toList, isMark c = false

namespace Sexp

instance (s : String) : Decidable (IsWord s) :=
  decidable_of_iff (s ≠ "" ∧ s.toList.all (fun c => !isMark c) = true) (by simp [IsWord])

/-- Characters of which none is a mark. -/
theorem isMark_eq_false {ok : Char → Bool} {c : Char} (h : ok c = true)
    (marks : [' ', '(', ')', '"'].all (fun c => !ok c) = true) : isMark c = false := by
  simp only [List.all_cons, List.all_nil, Bool.and_true, Bool.and_eq_true, Bool.not_eq_true']
    at marks
  obtain ⟨blank, opening, closing, quote⟩ := marks
  cases mark : isMark c with
  | false => rfl
  | true =>
      simp only [isMark, Bool.or_eq_true, decide_eq_true_eq] at mark
      rcases mark with ((rfl | rfl) | rfl) | rfl
      · cases h.symm.trans blank
      · cases h.symm.trans opening
      · cases h.symm.trans closing
      · cases h.symm.trans quote

mutual

/-- Whether all words are ones. -/
def Plain : Sexp → Prop
  | word w => IsWord w
  | quoted _ => True
  | list items => PlainAll items

def PlainAll : List Sexp → Prop
  | [] => True
  | x :: xs => x.Plain ∧ PlainAll xs

/-- The text of an s-expression. -/
def text : Sexp → String
  | word w => w
  | quoted s => Text.listing s
  | list items => Node.group (texts items)

def texts : List Sexp → List String
  | [] => []
  | x :: xs => x.text :: texts xs

end

/-- What follows the first item of a list, with the parenthesis at the end. -/
def tail : List Sexp → List Char
  | [] => [')']
  | x :: xs => ' ' :: (x.text.toList ++ tail xs)

/-- The items of a list, with the parenthesis at the end. -/
def body : List Sexp → List Char
  | [] => [')']
  | x :: xs => x.text.toList ++ tail xs

theorem toList_text_list (items : List Sexp) : (list items).text.toList = '(' :: body items := by
  have rest (first : String) (xs : List Sexp) :
      (" ".intercalate (first :: texts xs) ++ ")").toList = first.toList ++ tail xs := by
    induction xs generalizing first with
    | nil => simp [tail, texts]
    | cons x xs ih =>
        have next := ih x.text
        rw [texts, String.intercalate_cons_cons, String.toList_append, String.toList_append,
          String.toList_append, List.append_assoc, List.append_assoc, ← String.toList_append, next]
        rfl
  rw [text, Node.group, String.append_assoc, String.toList_append]
  cases items with
  | nil => simp [texts, body]
  | cons x xs => rw [texts, rest, body]; rfl

theorem IsWord.cons {w : String} (h : IsWord w) :
    ∃ c cs, w.toList = c :: cs ∧ isMark c = false := by
  cases e : w.toList with
  | nil => exact (h.1 (String.toList_eq_nil_iff.mp e)).elim
  | cons c cs => exact ⟨c, cs, rfl, h.2 c (e ▸ .head _)⟩

/-- A word ends where no word goes on. -/
theorem IsWord.takeWhile {w : String} {r : List Char} (h : IsWord w)
    (hr : ∀ c ∈ r.head?, isMark c = true) :
    (w.toList ++ r).takeWhile (fun c => !isMark c) = w.toList := by
  rw [Lexer.takeWhile_append (by simpa using hr), List.takeWhile_eq_self_iff]
  simpa using h.2

theorem tail_append_head (xs : List Sexp) (r : List Char) :
    ∀ c ∈ (tail xs ++ r).head?, isMark c = true := by
  cases xs <;> rintro c ⟨⟩ <;> rfl

/-- What an s-expression is, by its first character. -/
inductive Kind where
  | word
  | quoted
  | list
  deriving DecidableEq

def kindOf (c : Char) : Kind := if c = '"' then .quoted else if c = '(' then .list else .word

def kind : Sexp → Kind
  | word _ => .word
  | quoted _ => .quoted
  | list _ => .list

theorem head_text {x : Sexp} (hx : x.Plain) :
    ∃ c cs, x.text.toList = c :: cs ∧ kindOf c = x.kind ∧ c ≠ ')' := by
  cases x with
  | word w =>
      obtain ⟨c, cs, hw, first⟩ := IsWord.cons hx
      simp only [isMark, Bool.or_eq_false_iff, decide_eq_false_iff_not] at first
      obtain ⟨⟨⟨-, notOpen⟩, notClose⟩, notQuote⟩ := first
      exact ⟨c, cs, hw, by rw [kindOf, if_neg notQuote, if_neg notOpen]; rfl, notClose⟩
  | quoted s => exact ⟨'"', _, String.toList_ofList, rfl, by decide⟩
  | list items => exact ⟨'(', _, toList_text_list items, rfl, by decide⟩

variable {x y : Sexp} {r r' : List Char}

theorem kind_eq (hx : x.Plain) (hy : y.Plain) (h : x.text.toList ++ r = y.text.toList ++ r') :
    x.kind = y.kind := by
  obtain ⟨c, cs, hc, kind, -⟩ := head_text hx
  obtain ⟨d, ds, hd, kind', -⟩ := head_text hy
  rw [hc, hd] at h
  rw [← kind, ← kind', (List.cons.inj h).1]

/-- An s-expression does not begin with the parenthesis that ends a list. -/
theorem text_ne_close (hx : x.Plain) : x.text.toList ++ r ≠ ')' :: r' := by
  obtain ⟨c, cs, hc, -, other⟩ := head_text hx
  intro h
  rw [hc] at h
  exact other (List.cons.inj h).1

theorem word_append_inj {w : String} (hr : ∀ c ∈ r.head?, isMark c = true)
    (hr' : ∀ c ∈ r'.head?, isMark c = true) (hw : IsWord w) (hy : y.Plain)
    (h : (word w).text.toList ++ r = y.text.toList ++ r') : word w = y ∧ r = r' := by
  have kinds := kind_eq (x := word w) hw hy h
  cases y with
  | word v =>
      have same := congrArg (List.takeWhile fun c => !isMark c) h
      rw [text, text, IsWord.takeWhile hw hr, IsWord.takeWhile hy hr'] at same
      rw [text, text, same] at h
      exact ⟨congrArg word (String.toList_inj.mp same), List.append_cancel_left h⟩
  | quoted _ => cases kinds
  | list _ => cases kinds

theorem quoted_append_inj {s : String} (hy : y.Plain)
    (h : (quoted s).text.toList ++ r = y.text.toList ++ r') : quoted s = y ∧ r = r' := by
  have kinds := kind_eq (x := quoted s) trivial hy h
  cases y with
  | word _ => cases kinds
  | quoted t =>
      have ⟨same, rest⟩ := Text.listing_append_inj h
      exact ⟨congrArg quoted same, rest⟩
  | list _ => cases kinds

theorem list_append {xs : List Sexp} (hxs : (list xs).Plain) (hy : y.Plain)
    (h : (list xs).text.toList ++ r = y.text.toList ++ r') :
    ∃ ys, y = list ys ∧ PlainAll ys ∧ body xs ++ r = body ys ++ r' := by
  have kinds := kind_eq hxs hy h
  cases y with
  | word _ => cases kinds
  | quoted _ => cases kinds
  | list ys =>
      rw [toList_text_list, toList_text_list] at h
      exact ⟨ys, rfl, hy, (List.cons.inj h).2⟩

mutual

/-- **An s-expression is read off** from what starts with it, if no word goes on after it. -/
theorem text_append_inj (x y : Sexp) {r r' : List Char} (hr : ∀ c ∈ r.head?, isMark c = true)
    (hr' : ∀ c ∈ r'.head?, isMark c = true) (hx : x.Plain) (hy : y.Plain)
    (h : x.text.toList ++ r = y.text.toList ++ r') : x = y ∧ r = r' := by
  cases x with
  | word w => exact word_append_inj hr hr' hx hy h
  | quoted s => exact quoted_append_inj hy h
  | list xs =>
      obtain ⟨ys, rfl, hys, same⟩ := list_append hx hy h
      have ⟨items, rest⟩ := body_append_inj xs ys hx hys same
      exact ⟨congrArg list items, rest⟩
termination_by structural x

theorem body_append_inj (xs ys : List Sexp) {r r' : List Char} (hx : PlainAll xs)
    (hy : PlainAll ys) (h : body xs ++ r = body ys ++ r') : xs = ys ∧ r = r' := by
  cases xs with
  | nil =>
      cases ys with
      | nil => exact ⟨rfl, (List.cons.inj h).2⟩
      | cons y ys =>
          simp only [body, List.append_assoc] at h
          exact (text_ne_close hy.1 h.symm).elim
  | cons x xs =>
      cases ys with
      | nil =>
          simp only [body, List.append_assoc] at h
          exact (text_ne_close hx.1 h).elim
      | cons y ys =>
          simp only [body, List.append_assoc] at h
          have ⟨first, rest⟩ := text_append_inj x y (tail_append_head xs r) (tail_append_head ys r')
            hx.1 hy.1 h
          have ⟨more, after⟩ := tail_append_inj xs ys hx.2 hy.2 rest
          exact ⟨by rw [first, more], after⟩
termination_by structural xs

theorem tail_append_inj (xs ys : List Sexp) {r r' : List Char} (hx : PlainAll xs)
    (hy : PlainAll ys) (h : tail xs ++ r = tail ys ++ r') : xs = ys ∧ r = r' := by
  cases xs with
  | nil =>
      cases ys with
      | nil => exact ⟨rfl, (List.cons.inj h).2⟩
      | cons y ys => cases h
  | cons x xs =>
      cases ys with
      | nil => cases h
      | cons y ys =>
          simp only [tail, List.cons_append, List.append_assoc, List.cons.injEq, true_and] at h
          have ⟨first, rest⟩ := text_append_inj x y (tail_append_head xs r) (tail_append_head ys r')
            hx.1 hy.1 h
          have ⟨more, after⟩ := tail_append_inj xs ys hx.2 hy.2 rest
          exact ⟨by rw [first, more], after⟩
termination_by structural xs

end

/-- **The text of an s-expression tells what it is.** -/
theorem text_inj (hx : x.Plain) (hy : y.Plain) (h : x.text = y.text) : x = y := by
  have ended : ∀ c ∈ ([] : List Char).head?, isMark c = true := by simp
  have whole : x.text.toList ++ [] = y.text.toList ++ [] := by rw [h]
  exact (text_append_inj x y ended ended hx hy whole).1

end Sexp

end MiniRuby

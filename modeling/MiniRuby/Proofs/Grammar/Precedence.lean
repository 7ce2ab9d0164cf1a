import Mathlib.Data.List.Infix
import MiniRuby.Proofs.Grammar.Operand

/-!
# The precedence of operators

The infix operators have ranks, the loosest first.  Operators of one rank associate to the left,
except for the power operator, which associates to the right, and for the equality operators, which
do not associate.  A tree of operators follows the table if an operand of each operator is made by
an operator of a tighter rank, or by one of the same rank on the side that the operator associates
to (`InfixTree.Ordered`).  At most one such tree is written as a certain chain of operands and
operators.  Where two equality operators meet without a short-circuit operator between them there is
none, and else there is one.

* `InfixTree.Ordered.eq_of_links`: two such trees that are written alike are the same.
* `InfixTree.exists_of_links`: which chains are written by such a tree.
-/

namespace MiniRuby

/-! ### The table -/

/-- To which side an operator associates. -/
inductive Assoc where
  | left
  | right
  | none
deriving DecidableEq

namespace InfixOp

/-- How tightly an operator binds. -/
def rank : InfixOp → Nat
  | or => 0
  | and => 1
  | equal | caseEqual | unequal => 2
  | greaterEqual | greater | lessEqual | less | compare => 3
  | bitOr => 4
  | bitAnd => 5
  | shiftLeft => 6
  | plus | minus => 7
  | star | slash | percent => 8
  | power => 9

def assoc : InfixOp → Assoc
  | equal | caseEqual | unequal => .none
  | power => .right
  | _ => .left

/-- The operators that may leave out their right operand. -/
def isShort : InfixOp → Bool
  | or | and => true
  | _ => false

def isEquality : InfixOp → Bool
  | equal | caseEqual | unequal => true
  | _ => false

/-- What an operator makes of its operands. -/
def expr (op : InfixOp) (left right : Expr) : Expr :=
  match op with
  | or => .or left right
  | and => .and left right
  | _ => .binary left op.text right

variable {op op' : InfixOp}

/-- There are ten ranks. -/
theorem rank_le (op : InfixOp) : op.rank ≤ 9 := by cases op <;> decide

/-- The operators that may not evaluate their right side have the lowest ranks. -/
theorem isShort_iff : op.isShort = true ↔ op.rank < 2 := by cases op <;> decide

/-- Equality has a rank of its own. -/
theorem isEquality_iff : op.isEquality = true ↔ op.rank = 2 := by cases op <;> decide

/-- Operators of this rank do not associate. -/
theorem assoc_none_iff : op.assoc = .none ↔ op.rank = 2 := by cases op <;> decide

/-- Only powers associate to the right. -/
theorem assoc_right_iff : op.assoc = .right ↔ op.rank = 9 := by cases op <;> decide

theorem rank_power_iff : op.rank = 9 ↔ op = power := by cases op <;> decide

/-- The operators of one rank associate to the same side. -/
theorem assoc_eq_of_rank_eq (h : op.rank = op'.rank) : op.assoc = op'.assoc := by
  cases e : op.assoc with
  | none => exact (assoc_none_iff.mpr (h ▸ assoc_none_iff.mp e)).symm
  | right => exact (assoc_right_iff.mpr (h ▸ assoc_right_iff.mp e)).symm
  | left =>
      cases e' : op'.assoc with
      | left => rfl
      | none => rw [assoc_none_iff.mpr (h.trans (assoc_none_iff.mp e'))] at e; cases e
      | right => rw [assoc_right_iff.mpr (h.trans (assoc_right_iff.mp e'))] at e; cases e

/-- Whether an operand of some rank can stand on the left of an operator. -/
def AdmitsLeft (op : InfixOp) (rank : Nat) : Prop :=
  op.rank < rank ∨ op.rank = rank ∧ op.assoc = .left

/-- Whether an operand of some rank can stand on the right of an operator. -/
def AdmitsRight (op : InfixOp) (rank : Nat) : Prop :=
  op.rank < rank ∨ op.rank = rank ∧ op.assoc = .right

/-- On its left an operator admits only what binds as tightly at least. -/
theorem AdmitsLeft.le {rank : Nat} (h : op.AdmitsLeft rank) : op.rank ≤ rank :=
  h.elim Nat.le_of_lt fun h => Nat.le_of_eq h.1

theorem AdmitsRight.le {rank : Nat} (h : op.AdmitsRight rank) : op.rank ≤ rank :=
  h.elim Nat.le_of_lt fun h => Nat.le_of_eq h.1

end InfixOp

/-! ### Trees and chains -/

/-- The spelling of an integer that fits. -/
structure IntLiteral extends Numeral where
  fits : (toNumeral.value : Int) ≤ Parser.maxInteger

namespace IntLiteral

def token (n : IntLiteral) : TokenKind := .num n.value

def expr (n : IntLiteral) : Expr := .int (Int64.ofInt n.value)

end IntLiteral

/-- Integers with infix operators between them. -/
structure InfixChain where
  first : IntLiteral
  links : List (InfixOp × IntLiteral)

namespace InfixChain

/-- One link of a chain, with single blanks. -/
def linkChars (link : InfixOp × IntLiteral) : List Char :=
  ' ' :: (link.1.text.toList ++ ' ' :: link.2.chars)

/-- A chain on one line. -/
def text (chain : InfixChain) : String :=
  String.ofList (chain.first.chars ++ chain.links.flatMap linkChars)

/-- The operators of a chain, from the left. -/
def ops (chain : InfixChain) : List InfixOp := chain.links.map Prod.fst

/-- Whether no two equality operators stand in a stretch of operators that are not short-circuit
operators. -/
def IsClear (ops : List InfixOp) : Prop :=
  ∀ stretch, stretch <:+: ops → (∀ op ∈ stretch, op.isShort = false) →
    stretch.countP InfixOp.isEquality ≤ 1

/-- Whether an equality operator stands after the last short-circuit operator. -/
def IsOpen (ops : List InfixOp) : Prop :=
  ∃ stretch, stretch <:+ ops ∧ (∀ op ∈ stretch, op.isShort = false) ∧
    ∃ op ∈ stretch, op.isEquality = true

/-- One more operator keeps a chain clear, unless it is an equality operator after another one. -/
theorem isClear_concat {ops : List InfixOp} {op : InfixOp} :
    IsClear (ops ++ [op]) ↔ IsClear ops ∧ ¬ (IsOpen ops ∧ op.isEquality = true) := by
  constructor
  · refine fun h => ⟨fun stretch hs => h stretch (hs.trans (List.prefix_append ops _).isInfix), ?_⟩
    rintro ⟨⟨stretch, hs, long, o, ho, equal⟩, equal'⟩
    have one : 0 < stretch.countP InfixOp.isEquality := List.countP_pos_iff.mpr ⟨o, ho, equal⟩
    have long' : ∀ o ∈ stretch ++ [op], o.isShort = false := by
      intro o ho
      rcases List.mem_append.mp ho with ho | ho
      · exact long o ho
      · rw [List.mem_singleton.mp ho, ← Bool.not_eq_true, InfixOp.isShort_iff,
          InfixOp.isEquality_iff.mp equal']
        decide
    have two := h _ (List.suffix_append_self_iff.mpr hs).isInfix long'
    rw [List.countP_append, List.countP_singleton, if_pos equal'] at two
    omega
  · rintro ⟨clear, closed⟩ stretch hs long
    rcases List.infix_concat_iff.mp hs with hs | hs
    · rcases List.suffix_concat_iff.mp hs with rfl | ⟨stretch, rfl, hs'⟩
      · exact Nat.zero_le 1
      · have long' : ∀ o ∈ stretch, o.isShort = false :=
          fun o ho => long o (List.mem_append_left _ ho)
        rw [List.countP_append]
        cases e : op.isEquality with
        | false => simpa [e] using clear stretch hs'.isInfix long'
        | true =>
            have none : stretch.countP InfixOp.isEquality = 0 :=
              List.countP_eq_zero.mpr fun o ho equal =>
                closed ⟨⟨stretch, hs', long', o, ho, equal⟩, e⟩
            simp [none, e]
    · exact clear stretch hs long

end InfixChain

/-- A tree of infix operators over integers. -/
inductive InfixTree where
  | literal (n : IntLiteral)
  | node (left : InfixTree) (op : InfixOp) (right : InfixTree)

namespace InfixTree

/-- The rank of the operator at the top; an integer binds tighter than all operators. -/
def rank : InfixTree → Nat
  | literal _ => 10
  | node _ op _ => op.rank

def first : InfixTree → IntLiteral
  | literal n => n
  | node left _ _ => left.first

def links : InfixTree → List (InfixOp × IntLiteral)
  | literal _ => []
  | node left op right => left.links ++ (op, right.first) :: right.links

/-- The chain that a tree is written as. -/
def chain (t : InfixTree) : InfixChain := ⟨t.first, t.links⟩

/-- The operators of a tree, from the left. -/
def ops (t : InfixTree) : List InfixOp := t.chain.ops

/-- The expression that a tree stands for. -/
def expr : InfixTree → Expr
  | literal n => n.expr
  | node left op right => op.expr left.expr right.expr

/-- **Whether a tree follows the table.** -/
inductive Ordered : InfixTree → Prop where
  | literal (n : IntLiteral) : Ordered (literal n)
  | node {left right : InfixTree} {op : InfixOp} (hl : Ordered left) (hr : Ordered right)
      (onLeft : op.AdmitsLeft left.rank) (onRight : op.AdmitsRight right.rank) :
      Ordered (node left op right)

variable {t t' left right : InfixTree} {op op' : InfixOp}

@[simp] theorem ops_literal (n : IntLiteral) : (literal n).ops = [] := rfl

@[simp] theorem ops_node : (node left op right).ops = left.ops ++ op :: right.ops := by
  simp [ops, InfixChain.ops, chain, links]

/-- The loosest operator is at the top. -/
theorem Ordered.rank_le (ht : t.Ordered) : ∀ op ∈ t.ops, t.rank ≤ op.rank := by
  induction ht with
  | literal n => exact nofun
  | node _ _ onLeft onRight ihl ihr =>
      intro op hop
      rw [ops_node, List.mem_append, List.mem_cons] at hop
      rcases hop with hop | rfl | hop
      · exact onLeft.le.trans (ihl op hop)
      · exact Nat.le_refl _
      · exact onRight.le.trans (ihr op hop)

/-! ### A chain is written by one tree at most -/

/-- Of two operators, it is not so that each stands in an operand of the other one. -/
theorem not_crossed {rank rank' : Nat} (onRight : op.AdmitsRight rank) (hr : rank ≤ op'.rank)
    (onLeft : op'.AdmitsLeft rank') (hl : rank' ≤ op.rank) : False := by
  rcases onRight with h | ⟨h, right⟩
  · have := onLeft.le
    omega
  · rcases onLeft with h' | ⟨h', left⟩
    · omega
    · have side := InfixOp.assoc_eq_of_rank_eq (show op.rank = op'.rank by omega)
      rw [right, left] at side
      cases side

/-- Where trees are written alike, the left operand of none ends before that of the other. -/
theorem Ordered.eq_nil_of_links {left' right' : InfixTree} {more : List (InfixOp × IntLiteral)}
    (hr : right.Ordered) (onRight : op.AdmitsRight right.rank) (hl : left'.Ordered)
    (onLeft : op'.AdmitsLeft left'.rank) (hleft : left'.links = left.links ++ more)
    (hmore : (op, right.first) :: right.links = more ++ (op', right'.first) :: right'.links) :
    more = [] := by
  cases more with
  | nil => rfl
  | cons link more =>
      obtain ⟨rfl, hright⟩ := List.cons.inj hmore
      have later : op' ∈ right.ops :=
        List.mem_map.mpr ⟨(op', right'.first), by simp [chain, hright], rfl⟩
      have earlier : op ∈ left'.ops :=
        List.mem_map.mpr ⟨(op, right.first), by simp [chain, hleft], rfl⟩
      exact (not_crossed onRight (hr.rank_le _ later) onLeft (hl.rank_le _ earlier)).elim

/-- **Two trees that are written alike are the same** if they follow the table. -/
theorem Ordered.eq_of_links (ht : t.Ordered) (ht' : t'.Ordered) (hf : t.first = t'.first)
    (hl : t.links = t'.links) : t = t' := by
  induction ht generalizing t' with
  | literal n =>
      cases ht' with
      | literal n' => exact congrArg InfixTree.literal hf
      | node _ _ _ _ => simp [links] at hl
  | @node left right op ordl ordr onLeft onRight ihl ihr =>
      cases ht' with
      | literal n' => simp [links] at hl
      | @node left' right' op' ordl' ordr' onLeft' onRight' =>
          obtain ⟨hleft, hmore⟩ : left.links = left'.links ∧
              (op, right.first) :: right.links = (op', right'.first) :: right'.links := by
            rcases List.append_eq_append_iff.mp hl with ⟨more, hleft, hmore⟩ | ⟨more, hleft, hmore⟩
            · obtain rfl := eq_nil_of_links ordr onRight ordl' onLeft' hleft hmore
              exact ⟨by rw [hleft, List.append_nil], hmore⟩
            · obtain rfl := eq_nil_of_links ordr' onRight' ordl onLeft hleft hmore
              exact ⟨by rw [hleft, List.append_nil], hmore.symm⟩
          obtain ⟨hlink, hright⟩ := List.cons.inj hmore
          obtain ⟨rfl, hfirst⟩ := Prod.mk.inj hlink
          rw [ihl ordl' hf hleft, ihr ordr' hfirst hright]

/-! ### A clear chain is written by a tree -/

/-- Add an operator and an integer at the end. -/
def push : InfixTree → InfixOp → IntLiteral → InfixTree
  | literal n', op, n => node (literal n') op (literal n)
  | node left op' right, op, n =>
    if op.rank < op'.rank ∨ op.rank = op'.rank ∧ op.assoc = .left then
      node (node left op' right) op (literal n)
    else node left op' (right.push op n)

/-- Whether an equality operator has been opened to the right, so that no other one can follow. -/
def Full : InfixTree → Prop
  | literal _ => False
  | node _ op right => op.rank = 2 ∨ op.rank < 2 ∧ right.Full

/-- A tree in which an equality is open to the right binds no tighter than an equality. -/
theorem Full.rank_le (h : t.Full) : t.rank ≤ 2 := by
  cases t with
  | literal n => exact h.elim
  | node left op right => exact h.elim Nat.le_of_eq fun h => Nat.le_of_lt h.1

/-- The first literal stays the first. -/
theorem first_push (t : InfixTree) (op : InfixOp) (n : IntLiteral) :
    (t.push op n).first = t.first := by
  fun_induction push t op n <;> simp_all [first]

/-- One more link is put at the end. -/
theorem links_push (t : InfixTree) (op : InfixOp) (n : IntLiteral) :
    (t.push op n).links = t.links ++ [(op, n)] := by
  fun_induction push t op n with
  | case1 n' op n => rfl
  | case2 left op' right op n h => rfl
  | case3 left op' right op n h ih => simp [links, first_push, ih]

/-- The rank of a tree is that of its loosest operator. -/
theorem rank_push (t : InfixTree) (op : InfixOp) (n : IntLiteral) :
    (t.push op n).rank = min op.rank t.rank := by
  have := op.rank_le
  fun_induction push t op n <;> simp only [rank] <;> omega

/-- What is added keeps a tree ordered, unless it is an equality operator after another one. -/
theorem Ordered.push (ht : t.Ordered) {op : InfixOp} (h : ¬ (t.Full ∧ op.rank = 2))
    (n : IntLiteral) : (t.push op n).Ordered := by
  have last {left : InfixTree} (hl : left.Ordered) (onLeft : op.AdmitsLeft left.rank) :
      (InfixTree.node left op (.literal n)).Ordered :=
    .node hl (.literal n) onLeft (.inl (Nat.lt_succ_of_le op.rank_le))
  induction ht with
  | literal n' => exact last (.literal n') (.inl (Nat.lt_succ_of_le op.rank_le))
  | @node left right op' hl hr onLeft onRight ihl ihr =>
      rw [InfixTree.push]
      split
      case isTrue h => exact last (.node hl hr onLeft onRight) h
      case isFalse looser =>
        have tight : op'.rank < op.rank ∨ op'.rank = op.rank ∧ op'.assoc = .right := by
          rcases Nat.lt_trichotomy op.rank op'.rank with lt | eq | gt
          · exact (looser (.inl lt)).elim
          · refine .inr ⟨eq.symm, ?_⟩
            rw [← InfixOp.assoc_eq_of_rank_eq eq]
            cases e : op.assoc with
            | left => exact (looser (.inr ⟨eq, e⟩)).elim
            | right => rfl
            | none =>
                have two := InfixOp.assoc_none_iff.mp e
                exact (h ⟨.inl (eq.symm.trans two), two⟩).elim
          · exact .inl gt
        have room : ¬ (right.Full ∧ op.rank = 2) := by
          rintro ⟨full, two⟩
          refine h ⟨.inr ⟨?_, full⟩, two⟩
          rcases tight with lt | ⟨eq, side⟩
          · omega
          · have := InfixOp.assoc_right_iff.mp side
            omega
        refine .node hl (ihr room) onLeft ?_
        rw [rank_push]
        rcases onRight with lt | ⟨eq, side⟩
        · rcases tight with lt' | ⟨eq', side'⟩
          · exact .inl (by omega)
          · exact .inr ⟨by omega, side'⟩
        · exact .inr ⟨by omega, side⟩

/-- **When a tree is full**: if an equality operator stands after the last short-circuit one. -/
theorem Ordered.full_iff (ht : t.Ordered) : t.Full ↔ InfixChain.IsOpen t.ops := by
  induction ht with
  | literal n => simp [Full, InfixChain.IsOpen]
  | @node left right op hl hr onLeft onRight ihl ihr =>
      have whole := Ordered.node hl hr onLeft onRight
      rcases Nat.lt_trichotomy op.rank 2 with lt | eq | gt
      · -- The stretch begins after the operator at the top.
        have short : op.isShort = true := InfixOp.isShort_iff.mpr lt
        rw [Full, ihr, ops_node]
        constructor
        · rintro (eq | ⟨-, stretch, hs, rest⟩)
          · omega
          · exact ⟨stretch, hs.trans ((List.suffix_cons op _).trans (List.suffix_append _ _)), rest⟩
        · rintro ⟨stretch, hs, long, equal⟩
          refine .inr ⟨lt, stretch, ?_, long, equal⟩
          have outside : op ∉ stretch := fun hop => by simp [long op hop] at short
          rcases List.suffix_or_suffix_of_suffix hs (List.suffix_append left.ops _) with h | h
          · exact (List.suffix_cons_iff.mp h).resolve_left fun e => outside (e ▸ .head _)
          · exact (outside (h.subset (.head _))).elim
      · refine iff_of_true (.inl eq) ⟨op :: right.ops, ?_, fun o ho => ?_, op, .head _, ?_⟩
        · rw [ops_node]
          exact List.suffix_append _ _
        · have tight : 2 ≤ o.rank := by
            rcases List.mem_cons.mp ho with rfl | ho
            · exact eq.ge
            · have := onRight.le.trans (hr.rank_le o ho)
              omega
          rw [← Bool.not_eq_true, InfixOp.isShort_iff]
          omega
        · exact InfixOp.isEquality_iff.mpr eq
      · refine iff_of_false (by rintro (eq | ⟨lt, -⟩) <;> omega) ?_
        rintro ⟨stretch, hs, -, o, ho, equal⟩
        have tight : op.rank ≤ o.rank := whole.rank_le o (hs.subset ho)
        have := InfixOp.isEquality_iff.mp equal
        omega

/-- **A chain is written by a tree if it is clear**, and else a tree is the part of it before an
equality operator that cannot follow. -/
theorem exists_of_links (n : IntLiteral) (links : List (InfixOp × IntLiteral)) :
    (InfixChain.IsClear (links.map Prod.fst) →
      ∃ t : InfixTree, t.Ordered ∧ t.first = n ∧ t.links = links) ∧
    (¬ InfixChain.IsClear (links.map Prod.fst) →
      ∃ (t : InfixTree) (op : InfixOp) (n' : IntLiteral) (more : List (InfixOp × IntLiteral)),
        t.Ordered ∧ t.first = n ∧ t.Full ∧ op.rank = 2 ∧ links = t.links ++ (op, n') :: more) := by
  induction links using List.reverseRecOn with
  | nil =>
      refine ⟨fun _ => ⟨.literal n, .literal n, rfl, rfl⟩, fun h => (h fun stretch hs _ => ?_).elim⟩
      rw [List.infix_nil.mp hs]
      exact Nat.zero_le 1
  | append_singleton links link ih =>
      obtain ⟨op, n'⟩ := link
      rw [List.map_append, List.map_singleton, InfixChain.isClear_concat]
      by_cases clear : InfixChain.IsClear (links.map Prod.fst)
      · obtain ⟨t, ht, rfl, rfl⟩ := ih.1 clear
        have full : t.Full ↔ InfixChain.IsOpen (t.links.map Prod.fst) := ht.full_iff
        rw [← full, InfixOp.isEquality_iff]
        refine ⟨fun ⟨_, room⟩ => ?_, fun stuck => ?_⟩
        · exact ⟨t.push op n', ht.push room n', first_push .., links_push ..⟩
        · obtain ⟨full, equal⟩ := not_not.mp fun room => stuck ⟨clear, room⟩
          exact ⟨t, op, n', [], ht, rfl, full, equal, rfl⟩
      · refine ⟨fun h => (clear h.1).elim, fun _ => ?_⟩
        obtain ⟨t, op', n'', more, ht, hf, full, equal, rfl⟩ := ih.2 clear
        exact ⟨t, op', n'', more ++ [(op, n')], ht, hf, full, equal, by simp⟩

end InfixTree

end MiniRuby

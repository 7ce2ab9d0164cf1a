import MiniRuby.Proofs.Grammar.Literal

/-!
# Evaluating literals

A literal that writes a datum down evaluates to a value that holds it.  Strings and arrays are made
in new cells, so what the values before hold stays as it is (`Machine.Retains`).

* `perform_literal`: a literal evaluates to its datum, by induction on the fuel.
* `Session.run_spelling`: a program that spells a datum ends with a value that holds it.
-/

namespace MiniRuby

open MiniRuby.Action (bind_of_done)

variable {m m' : Machine}

theorem Machine.retains_newString (cls : ClassId) (text : String) :
    m.Retains { m with heap := (m.heap.newString cls text).2 } := by
  refine ⟨rfl, fun i cell h => ?_, fun i cell h => h⟩
  have hi : i < m.heap.strings.size := (Array.getElem?_eq_some_iff.mp h).1
  exact (Array.getElem?_push_lt hi).trans ((Array.getElem?_eq_getElem hi).symm.trans h)

theorem Machine.retains_newArray (cls : ClassId) (elements : Array Value) :
    m.Retains { m with heap := (m.heap.newArray cls elements).2 } := by
  refine ⟨rfl, fun i cell h => h, fun i cell h => ?_⟩
  have hi : i < m.heap.arrays.size := (Array.getElem?_eq_some_iff.mp h).1
  exact (Array.getElem?_push_lt hi).trans ((Array.getElem?_eq_getElem hi).symm.trans h)

/-- Elements are evaluated one after the other, and later ones leave earlier ones alone. -/
theorem each_literals {f : Node → Run Value} {names : NameTable} {nodes : List Node}
    {ds : List Datum} (hw : List.Forall₂ (Node.Writes names) nodes ds) (hn : m.names = names)
    (hf : ∀ d ∈ ds, ∀ node (m : Machine), node.Writes m.names d →
      ∃ v m', f node m = .done v m' ∧ m.Retains m' ∧ m'.Holds v d) :
    ∃ vs m', Action.each f nodes m = .done vs m' ∧ m.Retains m' ∧
      List.Forall₂ m'.Holds vs ds := by
  induction hw generalizing m with
  | nil => exact ⟨[], m, rfl, .refl m, .nil⟩
  | @cons node d nodes ds h _ ih =>
      obtain ⟨v, m₁, hv, hm₁, hd⟩ := hf d (.head _) node m (hn ▸ h)
      obtain ⟨vs, m', hvs, hm', hds⟩ := ih (hm₁.names.trans hn) fun d h => hf d (.tail _ h)
      refine ⟨v :: vs, m', ?_, hm₁.trans hm', .cons (hd.retain hm') hds⟩
      rw [Action.each_cons, bind_of_done hv, bind_of_done hvs]
      rfl

/-- **A literal evaluates to the datum that it writes down**, given fuel for its levels. -/
theorem perform_literal {fuel : Nat} {node : Node} {env : Env} {d : Datum}
    (hw : node.Writes m.names d) (hd : d.Within fuel) :
    ∃ v m', perform fuel (.eval node env) m = .done v m' ∧ m.Retains m' ∧ m'.Holds v d := by
  induction fuel generalizing node d m with
  | zero => exact hd.elim
  | succ fuel ih =>
      cases hw with
      | nil s => exact ⟨.nil, m, rfl, .refl m, .nil⟩
      | bool s b => exact ⟨.bool b, m, rfl, .refl m, .bool b⟩
      | int s i => exact ⟨.int i, m, rfl, .refl m, .int i⟩
      | sym s hi hn h => exact ⟨.sym _, m, rfl, .refl m, .sym hn h⟩
      | @str s text h =>
          refine ⟨_, _, rfl, Machine.retains_newString .string text, ?_⟩
          exact @Machine.Holds.str _ _ ⟨.string, text⟩ _ Array.getElem?_push_size rfl h
      | @arr s nodes ds hs =>
          obtain ⟨vs, m₁, hvs, hm₁, hds⟩ := @each_literals m (Perform.eval (perform fuel) env)
            _ _ _ hs rfl fun d h node m hw => ih hw (hd d h)
          have made := @Machine.retains_newArray m₁ .array vs.toArray
          refine ⟨_, _, bind_of_done hvs, hm₁.trans made, ?_⟩
          refine .arr Array.getElem?_push_size ?_
          exact hds.imp fun v d h => h.retain made

/-- A program that consists of a literal. -/
theorem start_literal {s : Span} {node : Node} {d : Datum} (hw : node.Writes m.names d)
    (hd : d.Within maxDepth) :
    ∃ v m', (Moment.start (.stmts s [node]) m).outcome = .done v m' ∧ m'.Holds v d := by
  have fuel : budget = maxDepth + (budget - maxDepth - 1) + 1 := by decide
  obtain ⟨v, m', hv, -, hvd⟩ := @perform_literal { m with depth := 0 }
    (maxDepth + (budget - maxDepth - 1)) node .top d hw (hd.mono (Nat.le_add_right _ _))
  refine ⟨v, m', ?_, hvd⟩
  change perform budget (.eval (.stmts s [node]) .top) { m with depth := 0 } = _
  rw [fuel]
  exact bind_of_done hv

/-- **A program that spells a datum** ends with a value that holds it. -/
theorem Session.run_spelling (path : String) {text : String} {d : Datum}
    (ht : text.toList = d.spelling) (hd : d.Within maxDepth) (m : Machine) :
    (Session.run path text m).DoneWith fun v m' => m'.Holds v d := by
  obtain ⟨toks, htoks, hk⟩ := Lexer.tokenize_spelling d
  obtain ⟨s, node, c, hparse, hw⟩ := parseTokens_datum m.names (m.frames.names .top) hk
  have read : Session.parse path text m = .done (.stmts s [node])
      { m with names := c.names, source? := some (Source.ofText path text) } := by
    simp only [Session.parse, ht, htoks, hparse]
  obtain ⟨v, m', hv, hvd⟩ := @start_literal
    { m with names := c.names, source? := some (Source.ofText path text) } s node d hw hd
  rw [run_of_parse read, hv]
  exact hvd

end MiniRuby

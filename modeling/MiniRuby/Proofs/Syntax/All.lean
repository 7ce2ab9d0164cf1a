import MiniRuby.Syntax.Outline

/-!
# What holds of all nodes of a tree

A property of nodes holds all over a tree when it holds of every node in the outline of the tree.
Each construct has a lemma that says so in terms of its parts.
-/

namespace MiniRuby.Node

variable {ok : Node → Prop} {k : Node}

attribute [simp] preorder preorderAll preorderParams preorderRescues

/-- A node is one of several trees if it is a node of one of them. -/
theorem mem_preorderAll {nodes : List Node} :
    k ∈ preorderAll nodes ↔ ∃ n ∈ nodes, k ∈ n.preorder := by
  induction nodes with
  | nil => simp
  | cons n nodes ih => simp [ih]

/-- The nodes of parameters are those of their defaults. -/
theorem mem_preorderParams {params : List (Param Node)} :
    k ∈ preorderParams params ↔ ∃ p ∈ params, ∃ d, p.default? = some d ∧ k ∈ d.preorder := by
  induction params with
  | nil => simp
  | cons p params ih =>
      obtain ⟨name, default?⟩ := p
      cases default? <;> simp [ih]

/-- The nodes of rescue clauses are those of the lists of classes and those of the bodies. -/
theorem mem_preorderRescues {clauses : List (RescueClause Node)} :
    k ∈ preorderRescues clauses ↔
      ∃ c ∈ clauses, (∃ n ∈ c.classes, k ∈ n.preorder) ∨ k ∈ c.body.preorder := by
  induction clauses with
  | nil => simp
  | cons c clauses ih =>
      obtain ⟨classes, binder?, body⟩ := c
      simp [mem_preorderAll, ih, or_assoc]

/-- Whether something holds of all nodes of a tree. -/
def All (ok : Node → Prop) (n : Node) : Prop := ∀ k ∈ n.preorder, ok k

instance [DecidablePred ok] (n : Node) : Decidable (n.All ok) :=
  inferInstanceAs (Decidable (∀ k ∈ n.preorder, ok k))

/-- What holds of all nodes of a tree on its own holds of them together. -/
theorem All.and {ok' : Node → Prop} {n : Node} (h : n.All ok) (h' : n.All ok') :
    n.All fun k => ok k ∧ ok' k :=
  fun k hk => ⟨h k hk, h' k hk⟩

/-- Whether something holds of all nodes of the defaults of some parameters. -/
def AllParams (ok : Node → Prop) (params : List (Param Node)) : Prop :=
  ∀ p ∈ params, ∀ d, p.default? = some d → d.All ok

/-- Whether something holds of all nodes of a `rescue` clause. -/
def AllClause (ok : Node → Prop) (c : RescueClause Node) : Prop :=
  (∀ n ∈ c.classes, n.All ok) ∧ c.body.All ok

/-- What holds of all nodes of several trees holds of all nodes of each. -/
theorem all_iff_preorderAll {nodes : List Node} :
    (∀ k ∈ preorderAll nodes, ok k) ↔ ∀ n ∈ nodes, n.All ok := by
  simp only [mem_preorderAll, All]
  exact ⟨fun h n hn k hk => h k ⟨n, hn, hk⟩, fun h k ⟨n, hn, hk⟩ => h n hn k hk⟩

/-- For parameters it is a matter of their defaults. -/
theorem all_iff_preorderParams {params : List (Param Node)} :
    (∀ k ∈ preorderParams params, ok k) ↔ AllParams ok params := by
  simp only [mem_preorderParams, AllParams, All]
  exact ⟨fun h p hp d hd k hk => h k ⟨p, hp, d, hd, hk⟩,
    fun h k ⟨p, hp, d, hd, hk⟩ => h p hp d hd k hk⟩

/-- For rescue clauses it is a matter of each clause. -/
theorem all_iff_preorderRescues {clauses : List (RescueClause Node)} :
    (∀ k ∈ preorderRescues clauses, ok k) ↔ ∀ c ∈ clauses, AllClause ok c := by
  simp only [mem_preorderRescues, AllClause, All]
  constructor
  · exact fun h c hc => ⟨fun n hn k hk => h k ⟨c, hc, .inl ⟨n, hn, hk⟩⟩,
      fun k hk => h k ⟨c, hc, .inr hk⟩⟩
  · rintro h k ⟨c, hc, ⟨n, hn, hk⟩ | hk⟩
    · exact (h c hc).1 n hn k hk
    · exact (h c hc).2 k hk

/-! ### Construct by construct -/

variable {s : Span} {a b c d : Node} {nodes : List Node} {name : NameId}
  {params : List (Param Node)} {clauses : List (RescueClause Node)}

/-- What holds of all nodes of a tree holds of its root. -/
theorem all_here (h : a.All ok) : ok a := by
  cases a with
  | classDef s name parent? body =>
      cases parent? <;> exact h _ (by simp)
  | send s receiver? name args =>
      cases receiver? <;> exact h _ (by simp)
  | _ => exact h _ (by simp)

/-- An array is its root and its elements. -/
@[simp] theorem all_array :
    (array s nodes).All ok ↔ ok (array s nodes) ∧ ∀ n ∈ nodes, n.All ok := by
  rw [← all_iff_preorderAll]
  simp [All]

/-- An assignment is its root, what is assigned to and what is assigned. -/
@[simp] theorem all_assign :
    (assign s a b).All ok ↔ ok (assign s a b) ∧ a.All ok ∧ b.All ok := by
  simp [All, or_imp, forall_and]

@[simp] theorem all_and : (and s a b).All ok ↔ ok (and s a b) ∧ a.All ok ∧ b.All ok := by
  simp [All, or_imp, forall_and]

@[simp] theorem all_or : (or s a b).All ok ↔ ok (or s a b) ∧ a.All ok ∧ b.All ok := by
  simp [All, or_imp, forall_and]

@[simp] theorem all_not : (not s a).All ok ↔ ok (not s a) ∧ a.All ok := by
  simp [All]

/-- Statements are a root with one tree for each of them. -/
@[simp] theorem all_stmts :
    (stmts s nodes).All ok ↔ ok (stmts s nodes) ∧ ∀ n ∈ nodes, n.All ok := by
  rw [← all_iff_preorderAll]
  simp [All]

/-- A condition has a test and two branches, also if one of them was not written. -/
@[simp] theorem all_cond :
    (cond s a b c).All ok ↔ ok (cond s a b c) ∧ a.All ok ∧ b.All ok ∧ c.All ok := by
  simp [All, or_imp, forall_and]

@[simp] theorem all_loop : (loop s a b).All ok ↔ ok (loop s a b) ∧ a.All ok ∧ b.All ok := by
  simp [All, or_imp, forall_and]

/-- A guarded body has parts in its rescue clauses, too. -/
@[simp] theorem all_guarded :
    (guarded s a clauses b c).All ok ↔ ok (guarded s a clauses b c) ∧ a.All ok ∧
      (∀ r ∈ clauses, AllClause ok r) ∧ b.All ok ∧ c.All ok := by
  rw [← all_iff_preorderRescues]
  simp [All, or_imp, forall_and]

@[simp] theorem all_breakWith : (breakWith s a).All ok ↔ ok (breakWith s a) ∧ a.All ok := by
  simp [All]

@[simp] theorem all_nextWith : (nextWith s a).All ok ↔ ok (nextWith s a) ∧ a.All ok := by
  simp [All]

@[simp] theorem all_returnWith : (returnWith s a).All ok ↔ ok (returnWith s a) ∧ a.All ok := by
  simp [All]

/-- The parts of a definition are its body and the defaults of its parameters. -/
@[simp] theorem all_methodDef :
    (methodDef s name params a).All ok ↔
      ok (methodDef s name params a) ∧ AllParams ok params ∧ a.All ok := by
  rw [← all_iff_preorderParams]
  simp [All, or_imp, forall_and]

/-- A definition on an object has the object that it is on as a further part. -/
@[simp] theorem all_singletonDef :
    (singletonDef s a name params b).All ok ↔
      ok (singletonDef s a name params b) ∧ a.All ok ∧ AllParams ok params ∧ b.All ok := by
  rw [← all_iff_preorderParams]
  simp [All, or_imp, forall_and]

/-- Whether the definition of a method is in order, as a method of instances or of a class. -/
def AllDef (ok : Node → Prop) (name : NameId) (params : List (Param Node)) (body : Node) : Prop :=
  (∃ s, (methodDef s name params body).All ok) ∨
    ∃ s target, (singletonDef s target name params body).All ok

/-- What holds of a definition holds of the parts that are evaluated when it is called. -/
theorem AllDef.parts (h : AllDef ok name params a) : AllParams ok params ∧ a.All ok := by
  rcases h with ⟨s, h⟩ | ⟨s, target, h⟩
  · exact (all_methodDef.mp h).2
  · exact (all_singletonDef.mp h).2.2

/-- A class has a parent only if one is written. -/
@[simp] theorem all_classDef {parent? : Option Node} :
    (classDef s name parent? a).All ok ↔
      ok (classDef s name parent? a) ∧ (∀ p, parent? = some p → p.All ok) ∧ a.All ok := by
  cases parent? <;> simp [All, or_imp, forall_and]

/-- A call has a receiver only if one is written, and any number of arguments. -/
@[simp] theorem all_send {receiver? : Option Node} :
    (send s receiver? name nodes).All ok ↔
      ok (send s receiver? name nodes) ∧ (∀ r, receiver? = some r → r.All ok) ∧
        ∀ n ∈ nodes, n.All ok := by
  rw [← all_iff_preorderAll]
  cases receiver? <;> simp [All, or_imp, forall_and]

/-! ### Targets of assignments -/

/-- Whether a node can be assigned to: a variable, a constant, or a call on a receiver. -/
def Assignable : Node → Prop
  | ident _ _ | instanceVar _ _ | const _ _ | send _ (some _) _ _ => True
  | _ => False

/-- Whether a node, if it is an assignment, is one to something that can be assigned to. -/
def AimsWell : Node → Prop
  | assign _ target _ => target.Assignable
  | _ => True

end MiniRuby.Node

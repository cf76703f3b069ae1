import TensorLowering.Proofs.Graph.CallOrder

/-!
# The steps of an evaluation

To evaluate an expression is to finish its nodes, each after the parts it is made from. Between the
value and the body of a local definition the variable is bound. As a tree an expression has these
steps wherever a node occurs (`Expr.evalSteps`); in a graph every step is done where it is met for
the first time (`Function.evalSteps`). So the steps of a function finish the parts of its body, each
one once (`Function.finish_mem_evalSteps_iff`).
-/

namespace TensorLowering

/-- A step of an evaluation. -/
inductive EvalStep where
  /-- The variable of a local definition is bound to the value. -/
  | bind (id : Nat) (v : Var) (value body : Expr)
  /-- A node is finished, after the parts it is made from. -/
  | finish (e : Expr)

namespace EvalStep

/-- The node a step belongs to. -/
def node : EvalStep → Expr
  | .bind id v value body => .letIn id v value body
  | .finish e => e

/-- The number of a step. A local definition has two steps. -/
def key : EvalStep → Nat
  | .bind id .. => 2 * id
  | .finish e => 2 * e.id + 1

/-- In a graph, a step is known by its number. -/
theorem eq_of_key_eq {k : Catalogue} {a b : EvalStep} (ha : a.node.In k) (hb : b.node.In k)
    (h : a.key = b.key) : a = b := by
  cases a with
  | bind i v value body =>
    cases b with
    | bind j v' value' body' =>
      have hid : i = j := Nat.eq_of_mul_eq_mul_left Nat.two_pos h
      obtain ⟨rfl, rfl, rfl, rfl⟩ := Expr.letIn.inj (Expr.In.eq_of_id_eq ha hb hid)
      rfl
    | finish e =>
      have hparity : 2 * i = 2 * e.id + 1 := h
      omega
  | finish d =>
    cases b with
    | bind j v' value' body' =>
      have hparity : 2 * d.id + 1 = 2 * j := h
      omega
    | finish e =>
      have hid : d.id = e.id := Nat.eq_of_mul_eq_mul_left Nat.two_pos (Nat.succ.inj h)
      exact congrArg finish (Expr.In.eq_of_id_eq ha hb hid)

end EvalStep

namespace Expr

mutual

/-- The steps of an expression as a tree. -/
def evalSteps : Expr → List EvalStep
  | .var id v => [.finish (.var id v)]
  | .const id t data => [.finish (.const id t data)]
  | .call id op attrs args t => evalStepsAll args ++ [.finish (.call id op attrs args t)]
  | .tuple id fields => evalStepsAll fields ++ [.finish (.tuple id fields)]
  | .proj id e i => e.evalSteps ++ [.finish (.proj id e i)]
  | .letIn id v value body =>
    value.evalSteps ++ .bind id v value body ::
      (body.evalSteps ++ [.finish (.letIn id v value body)])

/-- The steps of several expressions, evaluated one after the other. -/
def evalStepsAll : List Expr → List EvalStep
  | [] => []
  | e :: es => e.evalSteps ++ evalStepsAll es

end

variable {a : EvalStep} {d e : Expr} {es : List Expr}

/-- An expression is finished in its own steps. -/
theorem finish_mem_evalSteps (e : Expr) : .finish e ∈ e.evalSteps := by
  cases e <;> simp [evalSteps]

/-- The steps of several expressions are those of each, one after the other. -/
theorem evalStepsAll_eq_flatMap (es : List Expr) : evalStepsAll es = es.flatMap evalSteps := by
  induction es with
  | nil => rfl
  | cons e es ih => rw [evalStepsAll, ih, List.flatMap_cons]

/-- A node that is no definition is finished after its parts. -/
theorem evalSteps_eq (h : ∀ id v value body, e ≠ .letIn id v value body) :
    e.evalSteps = evalStepsAll e.parts ++ [.finish e] := by
  cases e with
  | var | const | call | tuple => rfl
  | proj id e i =>
    exact congrArg (· ++ [EvalStep.finish (.proj id e i)]) (List.append_nil e.evalSteps).symm
  | letIn id v value body => exact absurd rfl (h id v value body)

private theorem mem_evalStepsAll_iff : a ∈ evalStepsAll es ↔ ∃ e ∈ es, a ∈ e.evalSteps := by
  rw [evalStepsAll_eq_flatMap, List.mem_flatMap]

private theorem evalSteps_subset_evalStepsAll (h : e ∈ es) : e.evalSteps ⊆ evalStepsAll es :=
  fun _ ha => mem_evalStepsAll_iff.mpr ⟨e, h, ha⟩

private theorem Within.evalSteps_subset (h : d.Within e) : d.evalSteps ⊆ e.evalSteps := by
  induction h with
  | refl => exact List.Subset.refl _
  | call id op attrs t ha _ ih =>
    rw [evalSteps]
    have hsub := List.Subset.trans ih (evalSteps_subset_evalStepsAll ha)
    exact List.subset_append_of_subset_left _ hsub
  | tuple id ha _ ih =>
    rw [evalSteps]
    have hsub := List.Subset.trans ih (evalSteps_subset_evalStepsAll ha)
    exact List.subset_append_of_subset_left _ hsub
  | proj id i _ ih =>
    rw [evalSteps]
    exact List.subset_append_of_subset_left _ ih
  | letValue id v body _ ih =>
    rw [evalSteps]
    exact List.subset_append_of_subset_left _ ih
  | letBody id v value _ ih =>
    rw [evalSteps]
    exact List.subset_append_of_subset_right _
      (List.subset_cons_of_subset _ (List.subset_append_of_subset_left _ ih))

/-- The steps of an expression belong to its parts. -/
theorem within_of_mem_evalSteps (e : Expr) (h : a ∈ e.evalSteps) : a.node.Within e := by
  match e with
  | .var id v | .const id t data =>
    obtain rfl := List.mem_singleton.mp h
    exact .refl _
  | .call id op attrs args t =>
    rw [evalSteps, List.mem_append, List.mem_singleton] at h
    obtain h | rfl := h
    · obtain ⟨d, hd, h⟩ := mem_evalStepsAll_iff.mp h
      have hlt := List.sizeOf_lt_of_mem hd
      exact .call id op attrs t hd (within_of_mem_evalSteps d h)
    · exact .refl _
  | .tuple id fields =>
    rw [evalSteps, List.mem_append, List.mem_singleton] at h
    obtain h | rfl := h
    · obtain ⟨d, hd, h⟩ := mem_evalStepsAll_iff.mp h
      have hlt := List.sizeOf_lt_of_mem hd
      exact .tuple id hd (within_of_mem_evalSteps d h)
    · exact .refl _
  | .proj id e i =>
    rw [evalSteps, List.mem_append, List.mem_singleton] at h
    obtain h | rfl := h
    · exact .proj id i (within_of_mem_evalSteps e h)
    · exact .refl _
  | .letIn id v value body =>
    rw [evalSteps, List.mem_append, List.mem_cons, List.mem_append, List.mem_singleton] at h
    obtain h | rfl | h | rfl := h
    · exact .letValue id v body (within_of_mem_evalSteps value h)
    · exact .refl _
    · exact .letBody id v value (within_of_mem_evalSteps body h)
    · exact .refl _
termination_by sizeOf e
decreasing_by
  all_goals
    simp only [call.sizeOf_spec, tuple.sizeOf_spec, proj.sizeOf_spec, letIn.sizeOf_spec]
    omega

/-- The nodes that are finished are the parts. -/
theorem finish_mem_evalSteps_iff : .finish d ∈ e.evalSteps ↔ d.Within e :=
  ⟨within_of_mem_evalSteps e, fun h => h.evalSteps_subset (finish_mem_evalSteps d)⟩

/-- In a graph, a smaller part has another number. -/
theorem Within.id_ne {k : Catalogue} (h : d.Within e) (he : e.In k) (hlt : sizeOf d < sizeOf e) :
    d.id ≠ e.id := by
  intro hid
  rw [In.eq_of_id_eq (h.inCatalogue he) he hid] at hlt
  exact Nat.lt_irrefl _ hlt

end Expr

/-! ### Steps that were done -/

/-- What is known of the steps that were done, while some definitions are being evaluated: they are
steps of one graph, with a node all its steps were done, and a definition was finished unless it is
being evaluated. -/
structure Evaluated (k : Catalogue) (opened : List Expr) (done : List EvalStep) : Prop where
  inCatalogue : ∀ a ∈ done, a.node.In k
  closed : ∀ e, .finish e ∈ done → ∀ a ∈ e.evalSteps, a.key ∈ done.map EvalStep.key
  bound : ∀ a ∈ done, .finish a.node ∈ done ∨ a.node ∈ opened

namespace Evaluated

variable {k : Catalogue} {opened : List Expr} {done : List EvalStep} {a : EvalStep} {e : Expr}

/-- At the start nothing was evaluated. -/
theorem nil (k : Catalogue) : Evaluated k [] [] :=
  ⟨fun _ h => absurd h List.not_mem_nil, fun _ h => absurd h List.not_mem_nil,
    fun _ h => absurd h List.not_mem_nil⟩

/-- In a graph a step is known from its key. -/
theorem mem_of_key_mem (h : Evaluated k opened done) (ha : a.node.In k)
    (hkey : a.key ∈ done.map EvalStep.key) : a ∈ done := by
  obtain ⟨b, hb, heq⟩ := List.mem_map.mp hkey
  rwa [← EvalStep.eq_of_key_eq (h.inCatalogue b hb) ha heq]

/-- All steps of an expression were done. -/
theorem noteExpr (h : Evaluated k opened done) (he : e.In k) :
    Evaluated k opened (noteAllBy EvalStep.key done e.evalSteps) := by
  have hnew {a : EvalStep} (ha : a ∈ e.evalSteps) : a.node.In k :=
    (e.within_of_mem_evalSteps ha).inCatalogue he
  have hsub {a : EvalStep} (ha : a ∈ e.evalSteps) : a.node.evalSteps ⊆ e.evalSteps :=
    (e.within_of_mem_evalSteps ha).evalSteps_subset
  have hin : ∀ a ∈ noteAllBy EvalStep.key done e.evalSteps, a.node.In k := by
    intro a ha
    obtain ha | ha := mem_noteAllBy ha
    · exact h.inCatalogue a ha
    · exact hnew ha
  have hold : done ⊆ noteAllBy EvalStep.key done e.evalSteps := (prefix_noteAllBy _ _ _).subset
  refine ⟨hin, fun d hd a ha => ?_, fun a ha => ?_⟩
  · obtain hd | hd := mem_noteAllBy hd
    · exact List.map_subset _ hold (h.closed d hd a ha)
    · exact key_mem_noteAllBy (hsub hd ha) done
  · obtain ha | ha := mem_noteAllBy ha
    · exact (h.bound a ha).imp_left fun hfinish => hold hfinish
    · -- the step that finishes the node is among those that were noted, under its number
      have hfinish : .finish a.node ∈ e.evalSteps := hsub ha (Expr.finish_mem_evalSteps _)
      obtain ⟨b, hb, hkey⟩ := List.mem_map.mp (key_mem_noteAllBy hfinish done)
      have heq : b = .finish a.node := EvalStep.eq_of_key_eq (hin b hb) (hnew hfinish) hkey
      exact Or.inl (heq ▸ hb)

/-- A definition was bound and is being evaluated. -/
theorem enter (h : Evaluated k opened done) {id : Nat} {v : Var} {value body : Expr}
    (he : (Expr.letIn id v value body).In k) :
    Evaluated k (.letIn id v value body :: opened) (done ++ [.bind id v value body]) where
  inCatalogue a ha := by
    obtain ha | ha := List.mem_append.mp ha
    · exact h.inCatalogue a ha
    · obtain rfl := List.mem_singleton.mp ha
      exact he
  closed e hfinish a ha := by
    obtain hfinish | hfinish := List.mem_append.mp hfinish
    · rw [List.map_append]
      exact List.mem_append_left _ (h.closed e hfinish a ha)
    · cases List.mem_singleton.mp hfinish
  bound a ha := by
    obtain ha | ha := List.mem_append.mp ha
    · exact (h.bound a ha).imp (List.mem_append_left _) (List.mem_cons_of_mem _)
    · obtain rfl := List.mem_singleton.mp ha
      exact Or.inr List.mem_cons_self

/-- A step of a smaller part has another number. -/
private theorem key_ne_of_part {b : EvalStep} {d : Expr} (hb : b.node.In k) (hd : d.Within b.node)
    (hlt : sizeOf d < sizeOf b.node) (ha : a ∈ d.evalSteps) : a.key ≠ b.key := by
  have hwithin := d.within_of_mem_evalSteps ha
  intro hkey
  have heq := EvalStep.eq_of_key_eq ((hwithin.trans hd).inCatalogue hb) hb hkey
  have hle := hwithin.sizeOf_le
  rw [heq] at hle
  omega

/-- When the parts were done, a step of the node that was not done before is new. -/
private theorem newBy_snoc {b : EvalStep} {parts : List EvalStep}
    (hmiss : b.key ∉ done.map EvalStep.key) (hparts : ∀ a ∈ parts, a.key ≠ b.key) :
    newBy EvalStep.key done (parts ++ [b]) = newBy EvalStep.key done parts ++ [b] := by
  rw [newBy_append, newBy_singleton]
  intro hmem
  obtain ⟨a, ha, hkey⟩ := List.mem_map.mp hmem
  obtain ha | ha := mem_noteAllBy ha
  · exact hmiss (hkey ▸ List.mem_map_of_mem ha)
  · exact hparts a ha hkey

/-- A node that is no definition is finished after those of its parts that are new. -/
theorem newBy_node (he : e.In k) (hmiss : (EvalStep.finish e).key ∉ done.map EvalStep.key)
    (hlet : ∀ id v value body, e ≠ .letIn id v value body) :
    newBy EvalStep.key done e.evalSteps =
      newBy EvalStep.key done (Expr.evalStepsAll e.parts) ++ [.finish e] := by
  rw [Expr.evalSteps_eq hlet]
  refine newBy_snoc hmiss fun a ha => ?_
  obtain ⟨d, hd, ha⟩ := Expr.mem_evalStepsAll_iff.mp ha
  exact key_ne_of_part (b := .finish e) he (Expr.within_of_mem_parts hd)
    (Expr.sizeOf_lt_of_mem_parts hd) ha

/-- A definition that is met for the first time is bound after its value was evaluated. -/
theorem newBy_letIn (h : Evaluated k opened done) {id : Nat} {v : Var} {value body : Expr}
    (he : (Expr.letIn id v value body).In k)
    (hmiss : (EvalStep.finish (.letIn id v value body)).key ∉ done.map EvalStep.key)
    (hopened : .letIn id v value body ∉ opened) :
    newBy EvalStep.key done (Expr.letIn id v value body).evalSteps =
      newBy EvalStep.key done value.evalSteps ++ .bind id v value body ::
        (newBy EvalStep.key
            (noteAllBy EvalStep.key done value.evalSteps ++ [.bind id v value body])
            body.evalSteps ++
          [.finish (.letIn id v value body)]) := by
  have hvalue : value.Within (.letIn id v value body) := .letValue id v body (.refl value)
  have hbody : body.Within (.letIn id v value body) := .letBody id v value (.refl body)
  have hlt : sizeOf value < sizeOf (Expr.letIn id v value body) := by
    rw [Expr.letIn.sizeOf_spec]
    omega
  have hlt' : sizeOf body < sizeOf (Expr.letIn id v value body) := by
    rw [Expr.letIn.sizeOf_spec]
    omega
  have hfinish : (EvalStep.finish (.letIn id v value body)).key ∉
      (noteAllBy EvalStep.key done value.evalSteps).map EvalStep.key := by
    intro hmem
    obtain ⟨a, ha, hkey⟩ := List.mem_map.mp hmem
    obtain ha | ha := mem_noteAllBy ha
    · exact hmiss (hkey ▸ List.mem_map_of_mem ha)
    · exact key_ne_of_part (b := .finish (.letIn id v value body)) he hvalue hlt ha hkey
  have hbind : (EvalStep.bind id v value body).key ∉
      (noteAllBy EvalStep.key done value.evalSteps).map EvalStep.key := by
    intro hmem
    have hdone := h.noteExpr he.2.1
    have hmem := hdone.mem_of_key_mem (a := .bind id v value body) he hmem
    obtain hfinished | hopen := hdone.bound _ hmem
    · exact hfinish (List.mem_map_of_mem hfinished)
    · exact hopened hopen
  have hnote : noteAllBy EvalStep.key (noteAllBy EvalStep.key done value.evalSteps)
      [.bind id v value body] =
        noteAllBy EvalStep.key done value.evalSteps ++ [.bind id v value body] := if_neg hbind
  rw [Expr.evalSteps, newBy_append, ← List.singleton_append, newBy_append, newBy_singleton hbind,
    hnote, List.singleton_append, newBy_snoc]
  · rw [List.map_append, List.mem_append, not_or]
    refine ⟨hfinish, ?_⟩
    rw [List.map_singleton, List.mem_singleton, EvalStep.key, EvalStep.key]
    omega
  · exact fun a ha => key_ne_of_part (b := .finish (.letIn id v value body)) he hbody hlt' ha

end Evaluated

/-! ### The steps of a function -/

namespace Function

/-- The steps of a function, in the order in which they are met for the first time. -/
def evalSteps (f : Function) : List EvalStep := noteAllBy EvalStep.key [] f.body.evalSteps

/-- No step is done twice. -/
theorem nodup_evalSteps (f : Function) : (f.evalSteps.map EvalStep.key).Nodup :=
  nodup_noteAllBy_nil EvalStep.key f.body.evalSteps

variable {f : Function} {a : EvalStep} {e : Expr}

theorem within_of_mem_evalSteps (h : a ∈ f.evalSteps) : a.node.Within f.body :=
  f.body.within_of_mem_evalSteps ((mem_noteAllBy h).resolve_left List.not_mem_nil)

/-- The steps of a function are those of its tree. -/
private theorem mem_evalSteps_iff (hf : f.Coherent) : a ∈ f.evalSteps ↔ a ∈ f.body.evalSteps := by
  obtain ⟨k, hk⟩ := hf
  have hin {b : EvalStep} (hb : b ∈ f.body.evalSteps) : b.node.In k :=
    (f.body.within_of_mem_evalSteps hb).inCatalogue hk
  exact mem_noteAllBy_nil_iff fun a ha b hb hkey => EvalStep.eq_of_key_eq (hin ha) (hin hb) hkey

/-- **The nodes that are finished are the parts of the body.** -/
theorem finish_mem_evalSteps_iff (hf : f.Coherent) : .finish e ∈ f.evalSteps ↔ e.Within f.body :=
  (mem_evalSteps_iff hf).trans Expr.finish_mem_evalSteps_iff

end Function

end TensorLowering

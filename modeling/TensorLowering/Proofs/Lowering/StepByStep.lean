import TensorLowering.Proofs.Graph.EvalOrder
import TensorLowering.Proofs.Lowering.Begun

/-!
# Lowering step by step

A walk over a graph is one step after the other, in the order of evaluation. `Walk.perform` does a
step without visiting anything: what the parts of a node stand for was kept when they were finished.
To lower a function is to bind its parameters and then to perform its steps
(`Walk.lower_eq_performAll`), and a call is begun where its step is reached
(`Walk.begins_iff_reaches`). So what is said of single steps and holds from each to the next holds
of the walk.

The induction follows the graph. Of the steps that were done (`Evaluated`) it knows that with a node
all its steps were done, so a node that is met again adds none, and that a definition is bound only
if it was finished or is being evaluated, so a definition that is met for the first time is bound.
-/

namespace TensorLowering

open TensorLowering.Action

variable {σ α β : Type}

/-- What goes on alike from each value that there can be goes on alike. -/
theorem Action.bind_congr_of_ok {x : Action σ α} {f g : α → Action σ β}
    (h : ∀ a m n, x m = (.ok a, n) → f a = g a) : x >>= f = x >>= g := by
  funext m
  change Action.bind x f m = Action.bind x g m
  unfold Action.bind
  rcases hx : x m with ⟨o, n⟩
  cases o with
  | ok a => exact congrFun (h a m n hx) n
  | fault | panic | stalled => rfl

/-! ### Steps -/

/-- The tensors that are kept for a node. -/
def Progress.kept (s : Progress) (e : Expr) : List Tensor := (s.memo.lookup e.id).getD []

private theorem Progress.kept_of_lookup {s : Progress} {e : Expr} {ts : List Tensor}
    (h : s.memo.lookup e.id = some ts) : s.kept e = ts := by
  rw [kept, h, Option.getD_some]

/-- Tensors are kept for the nodes that were finished. -/
def Progress.Reflects (s : Progress) (done : List EvalStep) : Prop :=
  ∀ i, (s.memo.lookup i).isSome ↔ 2 * i + 1 ∈ done.map EvalStep.key

namespace Walk

/-- Lower a node whose parts were lowered. -/
def finish (w : Walk σ) (s : Progress) : Expr → Action σ (List Tensor × Progress)
  | .var _ v =>
    match s.bound.lookup v.id with
    | some ts => return (ts, s)
    | none => Action.fail (.unsupported (.freeVariable v.name))
  | .const _ t _ => do
    let t ← constantTensor w.aspect t
    return ([t], s)
  | .call _ op attrs args type => w.finishCall s ⟨op, attrs, args, type⟩ (args.flatMap s.kept)
  | .tuple _ fields => return (fields.flatMap s.kept, s)
  | .proj _ e i =>
    match projectTensors e.type (s.kept e) i with
    | .ok ts => return (ts, s)
    | .error why => Action.fail (.unsupported why)
  | .letIn _ _ _ body => return (s.kept body, s)

/-- Do one step. -/
def perform (w : Walk σ) (s : Progress) : EvalStep → Action σ Progress
  | .bind _ v value _ => return s.bind v (s.kept value)
  | .finish e => do
    let (ts, s) ← w.finish s e
    return s.remember e.id ts

/-- Do several steps, one after the other. -/
def performAll (w : Walk σ) (s : Progress) : List EvalStep → Action σ Progress
  | [] => return s
  | a :: as => do
    let s ← w.perform s a
    performAll w s as

/-- Doing some steps comes to one of them, with what was found and the machine that is left by the
steps before it. -/
def Reaches (w : Walk σ) (s : Progress) (as : List EvalStep) (n : Machine σ) (a : EvalStep)
    (s₁ : Progress) (n₁ : Machine σ) : Prop :=
  ∃ before after, as = before ++ a :: after ∧ w.performAll s before n = (.ok s₁, n₁)

section

variable {w : Walk σ} {s s' s₁ : Progress} {n n' n₁ : Machine σ} {a b : EvalStep}
  {as bs : List EvalStep} {e : Expr} {ts : List Tensor}

/-- Steps are performed one after the other. -/
theorem performAll_append (w : Walk σ) (s : Progress) (as bs : List EvalStep) :
    w.performAll s (as ++ bs) = w.performAll s as >>= fun s₁ => w.performAll s₁ bs := by
  induction as generalizing s with
  | nil => exact (pure_bind s fun s₁ => w.performAll s₁ bs).symm
  | cons a as ih =>
    rw [List.cons_append, performAll, performAll, bind_assoc]
    exact congrArg _ (funext fun s₁ => ih s₁)

private theorem performAll_singleton (w : Walk σ) (s : Progress) (a : EvalStep) :
    w.performAll s [a] = w.perform s a :=
  bind_pure (w.perform s a)

/-- The first step is reached at once, a later one after it. -/
theorem reaches_cons_iff : w.Reaches s (a :: as) n b s₁ n₁ ↔
    (a = b ∧ s = s₁ ∧ n = n₁) ∨
      ∃ s' n', w.perform s a n = (.ok s', n') ∧ w.Reaches s' as n' b s₁ n₁ := by
  constructor
  · rintro ⟨before, after, hsplit, hrun⟩
    cases before with
    | nil =>
      obtain ⟨rfl, -⟩ := List.cons.inj hsplit
      obtain ⟨rfl, rfl⟩ := pure_eq_ok_iff.mp hrun
      exact Or.inl ⟨rfl, rfl, rfl⟩
    | cons c before =>
      obtain ⟨rfl, htail⟩ := List.cons.inj hsplit
      obtain ⟨s', n', hstep, hrest⟩ := bind_eq_ok_iff.mp hrun
      exact Or.inr ⟨s', n', hstep, before, after, htail, hrest⟩
  · rintro (⟨rfl, rfl, rfl⟩ | ⟨s', n', hstep, before, after, rfl, hrun⟩)
    · exact ⟨[], as, rfl, rfl⟩
    · exact ⟨a :: before, after, rfl, bind_eq_ok_iff.mpr ⟨s', n', hstep, hrun⟩⟩

/-- Where there is no step none is reached. -/
theorem not_reaches_nil : ¬w.Reaches s [] n b s₁ n₁ := by
  rintro ⟨before, after, hsplit, -⟩
  exact absurd hsplit.symm (List.append_ne_nil_of_right_ne_nil before (List.cons_ne_nil b after))

private theorem reaches_singleton_iff : w.Reaches s [a] n b s₁ n₁ ↔ a = b ∧ s = s₁ ∧ n = n₁ := by
  rw [reaches_cons_iff]
  exact or_iff_left fun ⟨_, _, _, h⟩ => not_reaches_nil h

/-- Some steps and then others come to a step among the first ones, or else among the others. -/
theorem reaches_append_iff : w.Reaches s (as ++ bs) n b s₁ n₁ ↔
    w.Reaches s as n b s₁ n₁ ∨
      ∃ s' n', w.performAll s as n = (.ok s', n') ∧ w.Reaches s' bs n' b s₁ n₁ := by
  induction as generalizing s n with
  | nil =>
    rw [List.nil_append, or_iff_right not_reaches_nil]
    constructor
    · exact fun h => ⟨s, n, rfl, h⟩
    · rintro ⟨s', n', hrun, h⟩
      obtain ⟨rfl, rfl⟩ := pure_eq_ok_iff.mp hrun
      exact h
  | cons a as ih =>
    rw [List.cons_append, reaches_cons_iff, reaches_cons_iff, or_assoc]
    refine or_congr_right ?_
    constructor
    · rintro ⟨s', n', hstep, h⟩
      obtain h | ⟨s₂, n₂, hrun, h⟩ := ih.mp h
      · exact Or.inl ⟨s', n', hstep, h⟩
      · exact Or.inr ⟨s₂, n₂, bind_eq_ok_iff.mpr ⟨s', n', hstep, hrun⟩, h⟩
    · rintro (⟨s', n', hstep, h⟩ | ⟨s₂, n₂, hrun, h⟩)
      · exact ⟨s', n', hstep, ih.mpr (Or.inl h)⟩
      · obtain ⟨s', n', hstep, hrest⟩ := bind_eq_ok_iff.mp hrun
        exact ⟨s', n', hstep, ih.mpr (Or.inr ⟨s₂, n₂, hrest, h⟩)⟩

/-- A step that is reached is one of the steps. -/
theorem Reaches.mem (h : w.Reaches s as n a s₁ n₁) : a ∈ as := by
  obtain ⟨before, after, rfl, -⟩ := h
  exact List.mem_append_right before List.mem_cons_self

/-- A step that occurs once is reached once. -/
theorem Reaches.unique {s₂ : Progress} {n₂ : Machine σ} (has : as.Nodup)
    (h : w.Reaches s as n a s₁ n₁) (h' : w.Reaches s as n a s₂ n₂) : n₁ = n₂ := by
  induction as generalizing s n with
  | nil => exact absurd h not_reaches_nil
  | cons c as ih =>
    obtain ⟨hnew, hnodup⟩ := List.nodup_cons.mp has
    obtain ⟨rfl, rfl, rfl⟩ | ⟨s', n', hstep, hrest⟩ := reaches_cons_iff.mp h
    · obtain ⟨-, -, rfl⟩ | ⟨_, _, _, hrest'⟩ := reaches_cons_iff.mp h'
      · rfl
      · exact absurd hrest'.mem hnew
    · obtain ⟨rfl, -, -⟩ | ⟨s'', n'', hstep', hrest'⟩ := reaches_cons_iff.mp h'
      · exact absurd hrest.mem hnew
      · rw [hstep] at hstep'
        cases hstep'
        exact ih hnodup hrest hrest'

/-! ### What steps keep -/

private theorem finish_memo (h : w.finish s e n = (.ok (ts, s'), n')) : s'.memo = s.memo := by
  cases e with
  | var id v =>
    cases hlookup : s.bound.lookup v.id with
    | some us =>
      simp only [finish, hlookup] at h
      obtain ⟨-, rfl, -⟩ := pure_pair_eq_ok_iff.mp h
      rfl
    | none =>
      simp only [finish, hlookup] at h
      cases h
  | const id t data =>
    obtain ⟨u, n₁, -, hend⟩ := bind_eq_ok_iff.mp h
    obtain ⟨-, rfl, -⟩ := pure_pair_eq_ok_iff.mp hend
    rfl
  | call id op attrs args type => exact (finishCall_tables h).1
  | tuple | letIn =>
    obtain ⟨-, rfl, -⟩ := pure_pair_eq_ok_iff.mp h
    rfl
  | proj id e i =>
    cases hproject : projectTensors e.type (s.kept e) i with
    | ok us =>
      simp only [finish, hproject] at h
      obtain ⟨-, rfl, -⟩ := pure_pair_eq_ok_iff.mp h
      rfl
    | error why =>
      simp only [finish, hproject] at h
      cases h

/-- A step keeps tensors for the node that it finishes. -/
private theorem perform_lookup (h : w.perform s a n = (.ok s', n')) (i : Nat) :
    (a.key = 2 * i + 1 ∧ (s'.memo.lookup i).isSome) ∨
      a.key ≠ 2 * i + 1 ∧ s'.memo.lookup i = s.memo.lookup i := by
  cases a with
  | bind id v value body =>
    obtain ⟨rfl, -⟩ := pure_eq_ok_iff.mp h
    refine Or.inr ⟨?_, rfl⟩
    rw [EvalStep.key]
    omega
  | finish e =>
    obtain ⟨⟨ts, s₁⟩, n₁, hfinish, hend⟩ := bind_eq_ok_iff.mp h
    obtain ⟨rfl, -⟩ := pure_eq_ok_iff.mp hend
    rw [Progress.lookup_remember, EvalStep.key, finish_memo hfinish]
    by_cases hi : i = e.id
    · rw [if_pos hi]
      exact Or.inl ⟨by rw [hi], rfl⟩
    · rw [if_neg hi]
      exact Or.inr ⟨by omega, rfl⟩

private theorem performAll_lookup (h : w.performAll s as n = (.ok s', n')) {i : Nat}
    (hi : 2 * i + 1 ∉ as.map EvalStep.key) : s'.memo.lookup i = s.memo.lookup i := by
  induction as generalizing s n with
  | nil =>
    obtain ⟨rfl, -⟩ := pure_eq_ok_iff.mp h
    rfl
  | cons a as ih =>
    obtain ⟨s₁, n₁, hstep, hrest⟩ := bind_eq_ok_iff.mp h
    rw [List.map_cons, List.mem_cons, not_or] at hi
    rw [ih hrest hi.2]
    obtain ⟨hkey, -⟩ | ⟨-, hsame⟩ := perform_lookup hstep i
    · exact absurd hkey.symm hi.1
    · exact hsame

private theorem performAll_reflects {done : List EvalStep} (h : w.performAll s as n = (.ok s', n'))
    (hs : s.Reflects done) : s'.Reflects (done ++ as) := by
  induction as generalizing s n done with
  | nil =>
    obtain ⟨rfl, -⟩ := pure_eq_ok_iff.mp h
    rwa [List.append_nil]
  | cons a as ih =>
    obtain ⟨s₁, n₁, hstep, hrest⟩ := bind_eq_ok_iff.mp h
    rw [List.append_cons]
    refine ih hrest fun i => ?_
    rw [List.map_append, List.mem_append, List.map_singleton, List.mem_singleton, ← hs i]
    obtain ⟨hkey, hsome⟩ | ⟨hkey, hsame⟩ := perform_lookup hstep i
    · exact iff_of_true hsome (Or.inr hkey.symm)
    · rw [hsame, or_iff_left hkey.symm]

end

end Walk

/-! ### The walk and its steps -/

namespace Walk

/-- Doing some steps begins the call: it comes to the step that finishes the call. -/
def BeginsIn (w : Walk σ) (s : Progress) (as : List EvalStep) (n : Machine σ) (c : Begun σ) :
    Prop :=
  ∃ s₁, w.Reaches s as n (.finish c.node.expr) s₁ c.machine ∧
    c.inputs = c.node.call.args.flatMap s₁.kept

/-- A part of a walk is some steps, which leave these tensors and begin these calls. -/
structure Agrees (w : Walk σ) (s : Progress) (as : List EvalStep)
    (tensors : Progress → List Tensor) (x : Action σ (List Tensor × Progress))
    (begins : Machine σ → Begun σ → Prop) : Prop where
  run : x = w.performAll s as >>= fun s₁ => pure (tensors s₁, s₁)
  begins_iff : ∀ n c, begins n c ↔ w.BeginsIn s as n c

section

variable {w : Walk σ} {s s₁ : Progress} {n n₁ : Machine σ} {as bs : List EvalStep} {e : Expr}
  {ts : List Tensor} {tensors : Progress → List Tensor} {x : Action σ (List Tensor × Progress)}
  {begins : Machine σ → Begun σ → Prop} {c : Begun σ}

private theorem Agrees.run_iff (h : w.Agrees s as tensors x begins) :
    x n = (.ok (ts, s₁), n₁) ↔ w.performAll s as n = (.ok s₁, n₁) ∧ ts = tensors s₁ := by
  rw [h.run]
  constructor
  · intro hrun
    obtain ⟨s₂, n₂, hall, hend⟩ := bind_eq_ok_iff.mp hrun
    obtain ⟨rfl, rfl, rfl⟩ := pure_pair_eq_ok_iff.mp hend
    exact ⟨hall, rfl⟩
  · rintro ⟨hall, rfl⟩
    exact bind_eq_ok_iff.mpr ⟨s₁, n₁, hall, rfl⟩

private theorem not_beginsIn_nil : ¬w.BeginsIn s [] n c := fun ⟨_, h, _⟩ => not_reaches_nil h

private theorem beginsIn_append_iff : w.BeginsIn s (as ++ bs) n c ↔
    w.BeginsIn s as n c ∨
      ∃ s₁ n₁, w.performAll s as n = (.ok s₁, n₁) ∧ w.BeginsIn s₁ bs n₁ c := by
  constructor
  · rintro ⟨s₂, hreach, hinputs⟩
    obtain h | ⟨s₁, n₁, hrun, h⟩ := reaches_append_iff.mp hreach
    · exact Or.inl ⟨s₂, h, hinputs⟩
    · exact Or.inr ⟨s₁, n₁, hrun, s₂, h, hinputs⟩
  · rintro (⟨s₂, h, hinputs⟩ | ⟨s₁, n₁, hrun, s₂, h, hinputs⟩)
    · exact ⟨s₂, reaches_append_iff.mpr (Or.inl h), hinputs⟩
    · exact ⟨s₂, reaches_append_iff.mpr (Or.inr ⟨s₁, n₁, hrun, h⟩), hinputs⟩

/-- A step that finishes no call begins none. -/
private theorem not_beginsIn_singleton {a : EvalStep} (h : ∀ c : CallNode, a ≠ .finish c.expr) :
    ¬w.BeginsIn s [a] n c :=
  fun ⟨_, hreach, _⟩ => h c.node (reaches_singleton_iff.mp hreach).1

private theorem beginsIn_call_iff {d : CallNode} : w.BeginsIn s [.finish d.expr] n c ↔
    c = ⟨d, d.call.args.flatMap s.kept, n⟩ := by
  constructor
  · rintro ⟨s₁, hreach, hinputs⟩
    obtain ⟨hnode, rfl, rfl⟩ := reaches_singleton_iff.mp hreach
    have hnode : d = c.node := CallNode.expr_inj (EvalStep.finish.inj hnode)
    subst hnode
    exact Begun.ext rfl hinputs rfl
  · rintro rfl
    exact ⟨s, reaches_singleton_iff.mpr ⟨rfl, rfl, rfl⟩, rfl⟩

/-- Visiting a node that was not lowered before is finishing it after some steps, if lowering it
is. -/
theorem run_of_lowerNode (hmiss : s.memo.lookup e.id = none)
    (h : w.lowerNode s e = w.performAll s as >>= fun s₁ => w.finish s₁ e) :
    w.visit s e = w.performAll s (as ++ [.finish e]) >>= fun s₁ => pure (s₁.kept e, s₁) := by
  have hkept (r : List Tensor × Progress) : (r.2.remember e.id r.1).kept e = r.1 := by
    refine Progress.kept_of_lookup ?_
    rw [Progress.lookup_remember, if_pos rfl]
  rw [w.visit_of_lookup_none hmiss, h, performAll_append, bind_assoc, bind_assoc]
  refine congrArg _ (funext fun s₁ => ?_)
  rw [performAll_singleton, perform, bind_assoc]
  refine congrArg _ (funext fun r => ?_)
  rw [pure_bind, hkept]

/-- What is begun for the parts of a node that is no call and no definition is begun for it. -/
private theorem Agrees.node (h : w.Agrees s as tensors x (Visit.BeginsAmong w s e.parts))
    (hmiss : s.memo.lookup e.id = none)
    (hlower : w.lowerNode s e = w.performAll s as >>= fun s₁ => w.finish s₁ e)
    (hcall : ∀ c : CallNode, e ≠ c.expr) (hlet : ∀ id v value body, e ≠ .letIn id v value body) :
    w.Agrees s (as ++ [.finish e]) (fun s₁ => s₁.kept e) (w.visit s e)
      (fun n => Visit.Begins w ⟨s, n, e⟩) where
  run := run_of_lowerNode hmiss hlower
  begins_iff n c := by
    have hlast (s₁ : Progress) (n₁ : Machine σ) : ¬w.BeginsIn s₁ [.finish e] n₁ c :=
      not_beginsIn_singleton fun d heq => hcall d (EvalStep.finish.inj heq)
    rw [← begins_iff_parts hmiss rfl hcall hlet, h.begins_iff, beginsIn_append_iff]
    exact (or_iff_left fun ⟨s₁, n₁, _, hbegins⟩ => hlast s₁ n₁ hbegins).symm

/-- A node without parts is finished at once. -/
private theorem Agrees.leaf (h : w.Agrees s [] tensors x (Visit.BeginsAmong w s []))
    (hmiss : s.memo.lookup e.id = none) (hparts : e.parts = [])
    (hlower : w.lowerNode s e = w.finish s e)
    (hcall : ∀ c : CallNode, e ≠ c.expr) (hlet : ∀ id v value body, e ≠ .letIn id v value body) :
    w.Agrees s [.finish e] (fun s₁ => s₁.kept e) (w.visit s e)
      (fun n => Visit.Begins w ⟨s, n, e⟩) := by
  rw [← hparts] at h
  refine h.node hmiss ?_ hcall hlet
  rw [hlower, performAll, pure_bind]

/-- A call is begun when its arguments were lowered. -/
private theorem Agrees.call {d : CallNode}
    (h : w.Agrees s as (fun s₁ => d.call.args.flatMap s₁.kept) (w.visitAll s d.call.args)
      (Visit.BeginsAmong w s d.call.args))
    (hmiss : s.memo.lookup d.id = none) :
    w.Agrees s (as ++ [.finish d.expr]) (fun s₁ => s₁.kept d.expr) (w.visit s d.expr)
      (fun n => Visit.Begins w ⟨s, n, d.expr⟩) where
  run := by
    refine run_of_lowerNode hmiss ?_
    have hlower : w.lowerNode s d.expr =
        w.visitAll s d.call.args >>= fun r => w.finishCall r.2 d.call r.1 := rfl
    rw [hlower, h.run, bind_assoc]
    exact congrArg _ (funext fun s₁ => pure_bind _ _)
  begins_iff n c := by
    rw [← begins_iff_call hmiss, h.begins_iff, beginsIn_append_iff]
    refine or_congr_right ?_
    constructor
    · rintro ⟨inputs, s₁, n₁, hrun, rfl⟩
      obtain ⟨hall, rfl⟩ := h.run_iff.mp hrun
      exact ⟨s₁, n₁, hall, beginsIn_call_iff.mpr rfl⟩
    · rintro ⟨s₁, n₁, hall, hbegins⟩
      exact ⟨_, s₁, n₁, h.run_iff.mpr ⟨hall, rfl⟩, beginsIn_call_iff.mp hbegins⟩

/-- Under a definition the variable is bound to the tensors of the value. -/
private theorem Agrees.letIn {id : Nat} {v : Var} {value body : Expr}
    (hvalue : w.Agrees s as (fun s₁ => s₁.kept value) (w.visit s value)
      (fun n => Visit.Begins w ⟨s, n, value⟩))
    (hbody : ∀ s₁ n n₁, w.performAll s as n = (.ok s₁, n₁) →
      w.Agrees (s₁.bind v (s₁.kept value)) bs (fun s₂ => s₂.kept body)
        (w.visit (s₁.bind v (s₁.kept value)) body)
        (fun n => Visit.Begins w ⟨s₁.bind v (s₁.kept value), n, body⟩))
    (hmiss : s.memo.lookup id = none) :
    w.Agrees s (as ++ .bind id v value body :: (bs ++ [.finish (.letIn id v value body)]))
      (fun s₁ => s₁.kept (.letIn id v value body)) (w.visit s (.letIn id v value body))
      (fun n => Visit.Begins w ⟨s, n, .letIn id v value body⟩) where
  run := by
    have hlower : w.lowerNode s (.letIn id v value body) =
        w.visit s value >>= fun r => w.visit (r.2.bind v r.1) body := rfl
    rw [← List.cons_append, ← List.append_assoc]
    refine run_of_lowerNode hmiss ?_
    rw [hlower, hvalue.run, bind_assoc, performAll_append, bind_assoc]
    refine bind_congr_of_ok fun s₁ n n₁ hrun => ?_
    rw [pure_bind, (hbody s₁ n n₁ hrun).run]
    have hbind := pure_bind (s₁.bind v (s₁.kept value)) fun s₁ => w.performAll s₁ bs
    exact congrArg (· >>= _) hbind.symm
  begins_iff n c := by
    have hbound (s₁ : Progress) (n₁ : Machine σ) :
        w.BeginsIn s₁ (.bind id v value body :: (bs ++ [.finish (.letIn id v value body)])) n₁ c ↔
          w.BeginsIn (s₁.bind v (s₁.kept value)) bs n₁ c := by
      have hlast (s₂ : Progress) (n₂ : Machine σ) :
          ¬w.BeginsIn s₂ [.finish (.letIn id v value body)] n₂ c :=
        not_beginsIn_singleton fun d heq => by cases EvalStep.finish.inj heq
      have hfirst : ¬w.BeginsIn s₁ [.bind id v value body] n₁ c :=
        not_beginsIn_singleton fun d heq => by cases heq
      rw [← List.singleton_append, beginsIn_append_iff, or_iff_right hfirst]
      constructor
      · rintro ⟨s₂, n₂, hrun, h⟩
        rw [performAll_singleton] at hrun
        obtain ⟨rfl, rfl⟩ := pure_eq_ok_iff.mp hrun
        exact (beginsIn_append_iff.mp h).resolve_right fun ⟨s₃, n₃, _, h⟩ => hlast s₃ n₃ h
      · exact fun h => ⟨_, n₁, rfl, beginsIn_append_iff.mpr (Or.inl h)⟩
    rw [← begins_iff_letIn hmiss, hvalue.begins_iff, beginsIn_append_iff]
    refine or_congr_right ?_
    constructor
    · rintro ⟨us, s₁, n₁, hrun, hbegins⟩
      obtain ⟨hall, rfl⟩ := hvalue.run_iff.mp hrun
      exact ⟨s₁, n₁, hall, (hbound s₁ n₁).mpr (((hbody s₁ n n₁ hall).begins_iff n₁ c).mp hbegins)⟩
    · rintro ⟨s₁, n₁, hall, hbegins⟩
      refine ⟨_, s₁, n₁, hvalue.run_iff.mpr ⟨hall, rfl⟩, ?_⟩
      exact ((hbody s₁ n n₁ hall).begins_iff n₁ c).mpr ((hbound s₁ n₁).mp hbegins)

/-- Nothing is begun where there is nothing to visit. -/
private theorem agrees_nil (w : Walk σ) (s : Progress) :
    w.Agrees s [] (fun _ => []) (w.visitAll s []) (Visit.BeginsAmong w s []) where
  run := (pure_bind s fun s₁ => pure (([] : List Tensor), s₁)).symm
  begins_iff _ _ := iff_of_false Visit.not_beginsAmong_nil not_beginsIn_nil

/-- One expression is visited, and then the others. -/
theorem Agrees.cons {es : List Expr}
    (h : w.Agrees s as (fun s₁ => s₁.kept e) (w.visit s e) (fun n => Visit.Begins w ⟨s, n, e⟩))
    (hrest : ∀ s₁ n n₁, w.performAll s as n = (.ok s₁, n₁) →
      w.Agrees s₁ bs (fun s₂ => es.flatMap s₂.kept) (w.visitAll s₁ es)
        (Visit.BeginsAmong w s₁ es))
    (hnew : 2 * e.id + 1 ∉ bs.map EvalStep.key) :
    w.Agrees s (as ++ bs) (fun s₂ => (e :: es).flatMap s₂.kept) (w.visitAll s (e :: es))
      (Visit.BeginsAmong w s (e :: es)) where
  run := by
    have hvisit : w.visitAll s (e :: es) = w.visit s e >>= fun r =>
        w.visitAll r.2 es >>= fun r' => pure (r.1 ++ r'.1, r'.2) := rfl
    rw [hvisit, h.run, bind_assoc, performAll_append, bind_assoc]
    refine bind_congr_of_ok fun s₁ n n₁ hrun => ?_
    rw [pure_bind, (hrest s₁ n n₁ hrun).run, bind_assoc]
    refine bind_congr_of_ok fun s₂ m m₁ hrun' => ?_
    -- what was kept for the expression is still kept
    have hkept : s₂.kept e = s₁.kept e := by
      rw [Progress.kept, Progress.kept, performAll_lookup hrun' hnew]
    rw [pure_bind, List.flatMap_cons, hkept]
  begins_iff n c := by
    rw [Visit.beginsAmong_cons_iff, h.begins_iff, beginsIn_append_iff]
    refine or_congr_right ?_
    constructor
    · rintro ⟨us, s₁, n₁, hrun, hbegins⟩
      obtain ⟨hall, rfl⟩ := h.run_iff.mp hrun
      exact ⟨s₁, n₁, hall, ((hrest s₁ n n₁ hall).begins_iff n₁ c).mp hbegins⟩
    · rintro ⟨s₁, n₁, hall, hbegins⟩
      refine ⟨_, s₁, n₁, h.run_iff.mpr ⟨hall, rfl⟩, ?_⟩
      exact ((hrest s₁ n n₁ hall).begins_iff n₁ c).mpr hbegins

end

section

variable {w : Walk σ} {k : Catalogue} {opened : List Expr} {done : List EvalStep} {s : Progress}
  {e : Expr}

/-- A node that was lowered before adds no steps. -/
private theorem Agrees.meet (he : e.In k) (hdone : Evaluated k opened done) (hs : s.Reflects done)
    (hnode : s.memo.lookup e.id = none →
      w.Agrees s (newBy EvalStep.key done e.evalSteps) (fun s₁ => s₁.kept e) (w.visit s e)
        (fun n => Visit.Begins w ⟨s, n, e⟩)) :
    w.Agrees s (newBy EvalStep.key done e.evalSteps) (fun s₁ => s₁.kept e) (w.visit s e)
      (fun n => Visit.Begins w ⟨s, n, e⟩) := by
  cases hmemo : s.memo.lookup e.id with
  | none => exact hnode hmemo
  | some ts =>
    have hkey : (EvalStep.finish e).key ∈ done.map EvalStep.key :=
      (hs e.id).mp (Option.isSome_of_eq_some hmemo)
    have hfinish : .finish e ∈ done := hdone.mem_of_key_mem he hkey
    rw [newBy_of_mem (hdone.closed e hfinish)]
    refine ⟨?_, fun n c => iff_of_false (Visit.not_begins_of_lookup hmemo) not_beginsIn_nil⟩
    rw [w.visit_of_lookup hmemo, performAll, pure_bind, Progress.kept_of_lookup hmemo]

private theorem key_notMem_of_lookup (hs : s.Reflects done) (hmiss : s.memo.lookup e.id = none) :
    (EvalStep.finish e).key ∉ done.map EvalStep.key := by
  intro hmem
  have hsome := (hs e.id).mpr hmem
  rw [hmiss] at hsome
  cases hsome

private theorem sizeOf_parts_lt (h : ∀ d ∈ opened, sizeOf e < sizeOf d) :
    ∀ d ∈ opened, ∀ a ∈ e.parts, sizeOf a < sizeOf d :=
  fun d hd _ ha => Nat.lt_trans (Expr.sizeOf_lt_of_mem_parts ha) (h d hd)

/-- Binding a variable keeps nothing for a node. -/
private theorem reflects_bind (hs : s.Reflects done) (id : Nat) (v : Var) (value body : Expr) :
    (s.bind v (s.kept value)).Reflects (done ++ [.bind id v value body]) := by
  intro i
  rw [List.map_append, List.mem_append, List.map_singleton, List.mem_singleton, EvalStep.key,
    or_iff_left (by omega)]
  exact hs i

mutual

/-- To lower a node is to do those of its steps that were not done before. -/
theorem agrees_visit (w : Walk σ) : (e : Expr) → e.In k → ∀ {opened : List Expr}
    {done : List EvalStep} {s : Progress}, Evaluated k opened done →
    (∀ d ∈ opened, sizeOf e < sizeOf d) → s.Reflects done → s.memo.lookup e.id = none →
    w.Agrees s (newBy EvalStep.key done e.evalSteps) (fun s₁ => s₁.kept e) (w.visit s e)
      (fun n => Visit.Begins w ⟨s, n, e⟩)
  | .var id v, he, opened, done, s, hdone, hopened, hs, hmiss => by
    rw [Expr.evalSteps, newBy_singleton (key_notMem_of_lookup hs hmiss)]
    exact (agrees_nil w s).leaf (e := .var id v) hmiss rfl rfl nofun nofun
  | .const id t data, he, opened, done, s, hdone, hopened, hs, hmiss => by
    rw [Expr.evalSteps, newBy_singleton (key_notMem_of_lookup hs hmiss)]
    exact (agrees_nil w s).leaf (e := .const id t data) hmiss rfl rfl nofun nofun
  | .call id op attrs args type, he, opened, done, s, hdone, hopened, hs, hmiss => by
    have hargs := agrees_visitAll w args he.2 hdone (sizeOf_parts_lt hopened) hs
    rw [Evaluated.newBy_node he (key_notMem_of_lookup hs hmiss) nofun]
    exact Agrees.call (d := ⟨id, op, attrs, args, type⟩) hargs hmiss
  | .tuple id fields, he, opened, done, s, hdone, hopened, hs, hmiss => by
    have hfields := agrees_visitAll w fields he.2 hdone (sizeOf_parts_lt hopened) hs
    rw [Evaluated.newBy_node he (key_notMem_of_lookup hs hmiss) nofun]
    exact Agrees.node (e := .tuple id fields) hfields hmiss hfields.run nofun nofun
  | .proj id e i, he, opened, done, s, hdone, hopened, hs, hmiss => by
    have hvisit := Agrees.meet he.2 hdone hs fun hmiss' =>
      agrees_visit w e he.2 hdone
        (fun d hd => sizeOf_parts_lt hopened d hd e List.mem_cons_self) hs hmiss'
    have hsteps : Expr.evalStepsAll (Expr.proj id e i).parts = e.evalSteps :=
      List.append_nil e.evalSteps
    have hpart : w.Agrees s (newBy EvalStep.key done e.evalSteps) (fun s₁ => s₁.kept e)
        (w.visit s e) (Visit.BeginsAmong w s [e]) :=
      ⟨hvisit.run, fun n c => Visit.beginsAmong_singleton_iff.trans (hvisit.begins_iff n c)⟩
    rw [Evaluated.newBy_node he (key_notMem_of_lookup hs hmiss) nofun, hsteps]
    refine Agrees.node (e := .proj id e i) hpart hmiss ?_ nofun nofun
    rw [lowerNode, hvisit.run, bind_assoc]
    exact congrArg _ (funext fun s₁ => pure_bind _ _)
  | .letIn id v value body, he, opened, done, s, hdone, hopened, hs, hmiss => by
    have hvalue := Agrees.meet he.2.1 hdone hs fun hmiss' =>
      agrees_visit w value he.2.1 hdone
        (fun d hd => sizeOf_parts_lt hopened d hd value List.mem_cons_self) hs hmiss'
    have hself : Expr.letIn id v value body ∉ opened := fun h => Nat.lt_irrefl _ (hopened _ h)
    have henter := (hdone.noteExpr he.2.1).enter he
    have hsmaller : ∀ d ∈ Expr.letIn id v value body :: opened, sizeOf body < sizeOf d := by
      have hlt : sizeOf body < sizeOf (Expr.letIn id v value body) := by
        rw [Expr.letIn.sizeOf_spec]
        omega
      exact List.forall_mem_cons.mpr ⟨hlt, fun d hd => Nat.lt_trans hlt (hopened d hd)⟩
    rw [hdone.newBy_letIn he (key_notMem_of_lookup hs hmiss) hself]
    refine hvalue.letIn (fun s₁ n n₁ hrun => ?_) hmiss
    have hreflects := performAll_reflects hrun hs
    rw [append_newBy] at hreflects
    have hreflects' := reflects_bind hreflects id v value body
    exact Agrees.meet he.2.2 henter hreflects' fun hmiss' =>
      agrees_visit w body he.2.2 henter hsmaller hreflects' hmiss'

/-- The same of several nodes, one after the other. -/
theorem agrees_visitAll (w : Walk σ) : (es : List Expr) → Expr.InAll k es → ∀ {opened : List Expr}
    {done : List EvalStep} {s : Progress}, Evaluated k opened done →
    (∀ d ∈ opened, ∀ e ∈ es, sizeOf e < sizeOf d) → s.Reflects done →
    w.Agrees s (newBy EvalStep.key done (Expr.evalStepsAll es)) (fun s₁ => es.flatMap s₁.kept)
      (w.visitAll s es) (Visit.BeginsAmong w s es)
  | [], hes, opened, done, s, hdone, hopened, hs => by
    rw [Expr.evalStepsAll, newBy_of_mem (fun a ha => absurd ha List.not_mem_nil)]
    exact agrees_nil w s
  | e :: es, hes, opened, done, s, hdone, hopened, hs => by
    have hfirst := Agrees.meet hes.1 hdone hs fun hmiss =>
      agrees_visit w e hes.1 hdone (fun d hd => hopened d hd e List.mem_cons_self) hs hmiss
    rw [Expr.evalStepsAll, newBy_append]
    refine hfirst.cons (fun s₁ n n₁ hrun => ?_) ?_
    · have hreflects := performAll_reflects hrun hs
      rw [append_newBy] at hreflects
      exact agrees_visitAll w es hes.2 (hdone.noteExpr hes.1)
        (fun d hd a ha => hopened d hd a (List.mem_cons_of_mem _ ha)) hreflects
    · intro hmem
      obtain ⟨a, ha, hkey⟩ := List.mem_map.mp hmem
      have hold : (EvalStep.finish e).key ∈ (noteAllBy EvalStep.key done e.evalSteps).map _ :=
        key_mem_noteAllBy (Expr.finish_mem_evalSteps e) done
      exact key_notMem_of_mem_newBy ha (hkey ▸ hold)

end

end

/-! ### Functions -/

section

variable {w : Walk σ} {f : Function} {m n : Machine σ} {s : Progress} {inputs : List Tensor}

/-- When the parameters were bound, the body is visited step by step. -/
private theorem agrees_body (hf : f.Coherent)
    (h : w.bindParams .start f.params m = (.ok (inputs, s), n)) :
    w.Agrees s f.evalSteps (fun s₁ => s₁.kept f.body) (w.visit s f.body)
      (fun n => Visit.Begins w ⟨s, n, f.body⟩) := by
  obtain ⟨k, hk⟩ := hf
  have hmemo : s.memo = [] := (bindParams_memo h).1
  have hreflects : s.Reflects [] := by
    intro i
    rw [hmemo]
    exact iff_of_false nofun List.not_mem_nil
  have hmiss : s.memo.lookup f.body.id = none := by rw [hmemo]; rfl
  have hsteps : newBy EvalStep.key [] f.body.evalSteps = f.evalSteps :=
    append_newBy EvalStep.key [] f.body.evalSteps
  rw [← hsteps]
  exact agrees_visit w f.body hk (.nil k) (fun d hd => absurd hd List.not_mem_nil) hreflects hmiss

/-- **To lower a function** is to bind its parameters and then to do its steps, each of them once
and in the order of evaluation. -/
theorem lower_eq_performAll (w : Walk σ) (hf : f.Coherent) : w.lower f = do
    let (inputs, s) ← w.bindParams .start f.params
    let s ← w.performAll s f.evalSteps
    return ⟨inputs, s.kept f.body, s.calls.reverse, s.ops.reverse⟩ := by
  refine bind_congr_of_ok fun ⟨inputs, s⟩ m n h => ?_
  dsimp only
  rw [(agrees_body hf h).run, bind_assoc]
  exact congrArg _ (funext fun s₁ => pure_bind _ _)

/-- **A call is begun** where the step that finishes it is reached. -/
theorem begins_iff_reaches (hf : f.Coherent) {c : Begun σ} : w.Begins f m c ↔
    ∃ inputs s n s₁, w.bindParams .start f.params m = (.ok (inputs, s), n) ∧
      w.Reaches s f.evalSteps n (.finish c.node.expr) s₁ c.machine ∧
      c.inputs = c.node.call.args.flatMap s₁.kept := by
  constructor
  · intro hbegins
    obtain ⟨a, ⟨inputs, s, n, hparams, hreach⟩, hat⟩ := hbegins
    have hbody : Visit.Begins w ⟨s, n, f.body⟩ c := ⟨a, hreach, hat⟩
    obtain ⟨s₁, hreaches, hinputs⟩ := ((agrees_body hf hparams).begins_iff n c).mp hbody
    exact ⟨inputs, s, n, s₁, hparams, hreaches, hinputs⟩
  · rintro ⟨inputs, s, n, s₁, hparams, hreaches, hinputs⟩
    rw [← begins_iff_body hparams]
    exact ((agrees_body hf hparams).begins_iff n c).mpr ⟨s₁, hreaches, hinputs⟩

/-- Steps end with a fault just if one of them does, after all those before it have ended well. -/
theorem performAll_eq_fault_iff {as : List EvalStep} {e : Fault} {n' : Machine σ} :
    w.performAll s as n = (.fault e, n') ↔ ∃ before a after s₁ n₁, as = before ++ a :: after ∧
      w.performAll s before n = (.ok s₁, n₁) ∧ w.perform s₁ a n₁ = (.fault e, n') := by
  induction as generalizing s n with
  | nil =>
    refine iff_of_false nofun ?_
    rintro ⟨before, a, after, -, -, hsplit, -⟩
    exact absurd hsplit.symm (List.append_ne_nil_of_right_ne_nil before (List.cons_ne_nil a after))
  | cons b as ih =>
    rw [performAll, bind_eq_fault_iff]
    constructor
    · rintro (hstep | ⟨s₁, n₁, hstep, hrest⟩)
      · exact ⟨[], b, as, s, n, rfl, rfl, hstep⟩
      · obtain ⟨before, a, after, s₂, n₂, rfl, hbefore, ha⟩ := ih.mp hrest
        exact ⟨b :: before, a, after, s₂, n₂, rfl, bind_eq_ok_iff.mpr ⟨s₁, n₁, hstep, hbefore⟩, ha⟩
    · rintro ⟨before, a, after, s₂, n₂, hsplit, hbefore, ha⟩
      cases before with
      | nil =>
        obtain ⟨rfl, -⟩ := List.cons.inj hsplit
        obtain ⟨rfl, rfl⟩ := pure_eq_ok_iff.mp hbefore
        exact Or.inl ha
      | cons c before =>
        obtain ⟨rfl, htail⟩ := List.cons.inj hsplit
        obtain ⟨s₁, n₁, hstep, hrest⟩ := bind_eq_ok_iff.mp hbefore
        exact Or.inr ⟨s₁, n₁, hstep, ih.mpr ⟨before, a, after, s₂, n₂, htail, hrest, ha⟩⟩

end

end Walk

end TensorLowering

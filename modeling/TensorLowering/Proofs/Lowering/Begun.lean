import TensorLowering.Proofs.Lowering.Visits

/-!
# The calls that are begun

A call is *begun* when its arguments were lowered, and a lowering that fails has begun some of the
calls of its function. `Walk.Begins` says which these are, with the machines that they began with;
it is stated of the visits that are made, whatever comes of them.

The calls that are begun are the first ones of the calls of the function in the order of evaluation,
and all of them if the lowering ends well. What is done for one after the other leads from the
first machine to the last one: a statement about machines and the calls begun before is true in the
end if it stays true when numbers are taken and when a call is finished, in whatever way
(`Walk.lower_log`). The proof follows the graph, from the calls begun before a node is visited to
those begun when the visit has ended (`Walk.Logged`).
-/

namespace TensorLowering

open TensorLowering.Action

variable {σ α β : Type}

/-- Two things in a row go on from the value of the first one, or end with it. -/
theorem Action.bind_run (x : Action σ α) (f : α → Action σ β) (m : Machine σ) :
    (∃ a, (x m).1 = .ok a ∧ (x >>= f) m = f a (x m).2) ∨
      (∀ a, (x m).1 ≠ .ok a) ∧ ((x >>= f) m).2 = (x m).2 ∧ ∀ b, ((x >>= f) m).1 ≠ .ok b := by
  have hrun : (x >>= f) m = Action.bind x f m := rfl
  rw [hrun]
  unfold Action.bind
  rcases x m with ⟨o, n⟩
  cases o with
  | ok a => exact Or.inl ⟨a, rfl, rfl⟩
  | fault | panic | stalled => exact Or.inr ⟨nofun, rfl, nofun⟩

/-- After a success the rest is done with its result. -/
theorem Action.bind_of_ok {x : Action σ α} {m n : Machine σ} {a : α} (h : x m = (.ok a, n))
    (f : α → Action σ β) : (x >>= f) m = f a n := by
  change Action.bind x f m = f a n
  unfold Action.bind
  rw [h]

/-- After a failure nothing else is done. -/
theorem Action.bind_machine_of_fails {x : Action σ α} {m : Machine σ} (h : ∀ a, (x m).1 ≠ .ok a)
    (f : α → Action σ β) : ((x >>= f) m).2 = (x m).2 := by
  obtain ⟨a, hr, -⟩ | ⟨-, hmachine, -⟩ := bind_run x f m
  · exact absurd hr (h a)
  · exact hmachine

/-- What goes on without touching the machine leaves the one that was there. -/
theorem Action.bind_machine {f : α → Action σ β} (hf : ∀ a n, (f a n).2 = n) (x : Action σ α)
    (m : Machine σ) : ((x >>= f) m).2 = (x m).2 := by
  obtain ⟨a, -, hrun⟩ | ⟨-, hmachine, -⟩ := bind_run x f m
  · rw [hrun, hf]
  · exact hmachine

/-- The machine that two things in a row leave is that of the first one, or that of what goes on. -/
theorem Action.bind_machine_of {R : Machine σ → Prop} {x : Action σ α} {f : α → Action σ β}
    {m : Machine σ} (hx : R (x m).2) (hf : ∀ a, (x m).1 = .ok a → R (f a (x m).2).2) :
    R ((x >>= f) m).2 := by
  obtain ⟨a, hr, hrun⟩ | ⟨-, hmachine, -⟩ := bind_run x f m
  · rw [hrun]
    exact hf a hr
  · rw [hmachine]
    exact hx

/-- What holds of the results of the rest holds of those of both. -/
theorem Action.bind_result {P : α → Prop} {Q : β → Prop} {x : Action σ α} {f : α → Action σ β}
    (hx : ∀ m a, (x m).1 = .ok a → P a) (hf : ∀ a, P a → ∀ m b, (f a m).1 = .ok b → Q b)
    (m : Machine σ) (b : β) (hb : ((x >>= f) m).1 = .ok b) : Q b := by
  obtain ⟨a, n, ha, hfa⟩ := bind_eq_ok_iff.mp (Prod.ext hb rfl)
  exact hf a (hx m a (congrArg Prod.fst ha)) n b (congrArg Prod.fst hfa)

/-- A call is known from its expression. -/
theorem CallNode.expr_inj {c d : CallNode} (h : c.expr = d.expr) : c = d := by
  obtain ⟨id, op, attrs, args, type⟩ := c
  cases h
  rfl

/-! ### Beginning a call -/

/-- A call with the tensors of its arguments and the machine that it begins with. -/
@[ext]
structure Begun (σ : Type) where
  node : CallNode
  inputs : List Tensor
  machine : Machine σ

namespace Begun

/-- The machine that is left when the call was lowered, in whatever way that has ended. -/
def after (c : Begun σ) (w : Walk σ) : Machine σ :=
  (w.finishCall .start c.node.call c.inputs c.machine).2

/-- What was found before the call does not matter for what is done with it. -/
theorem after_eq (c : Begun σ) (w : Walk σ) (s : Progress) :
    (w.finishCall s c.node.call c.inputs c.machine).2 = c.after w := by
  unfold after Walk.finishCall
  cases w.aspect with
  | values | shapes =>
    exact (bind_machine (fun _ _ => rfl) _ _).trans (bind_machine (fun _ _ => rfl) _ _).symm

end Begun

namespace Visit

variable {w : Walk σ} {a b : Visit σ} {c : Begun σ} {s : Progress} {n : Machine σ} {e : Expr}
  {es : List Expr}

/-- The visit is that of a call which was not lowered before, and its arguments were lowered. -/
structure At (w : Walk σ) (a : Visit σ) (c : Begun σ) : Prop where
  missed : a.Missed
  node : a.node = c.node.expr
  args : ∃ s, w.visitAll a.progress c.node.call.args a.machine = (.ok (c.inputs, s), c.machine)

/-- The visit leads to one that begins the call. -/
def Begins (w : Walk σ) (a : Visit σ) (c : Begun σ) : Prop := ∃ b, a.Reaches w b ∧ b.At w c

/-- The call is begun while several expressions are visited. -/
def BeginsAmong (w : Walk σ) (s : Progress) (es : List Expr) (n : Machine σ) (c : Begun σ) : Prop :=
  ∃ before e after us s₁ n₁, es = before ++ e :: after ∧
    w.visitAll s before n = (.ok (us, s₁), n₁) ∧ Begins w ⟨s₁, n₁, e⟩ c

/-- The call is begun under a local definition. -/
def BeginsUnder (w : Walk σ) (a : Visit σ) (c : Begun σ) : Prop :=
  ∃ id v value body us s n, a.node = .letIn id v value body ∧
    w.visit a.progress value a.machine = (.ok (us, s), n) ∧ Begins w ⟨s.bind v us, n, body⟩ c

/-- Nothing is begun for a node that was lowered before. -/
theorem not_begins_of_lookup {ts : List Tensor} (h : a.progress.memo.lookup a.node.id = some ts) :
    ¬a.Begins w c := by
  have hne : ¬a.Missed := by
    intro hmiss
    rw [Missed, h] at hmiss
    cases hmiss
  rintro ⟨b, hreach, hat⟩
  obtain rfl | ⟨d, hlead, -⟩ := Relation.ReflTransGen.cases_head hreach
  · exact hne hat.missed
  · exact hne hlead.missed

/-- What is begun for a node is begun for the node itself, for its parts or under its definition. -/
theorem begins_iff (hmiss : a.Missed) : a.Begins w c ↔
    a.At w c ∨ BeginsAmong w a.progress a.node.parts a.machine c ∨ a.BeginsUnder w c := by
  constructor
  · rintro ⟨b, hreach, hat⟩
    obtain rfl | ⟨d, hlead, hrest⟩ := Relation.ReflTransGen.cases_head hreach
    · exact Or.inl hat
    · cases hlead with
      | part _ hparts hrun => exact Or.inr (Or.inl ⟨_, _, _, _, _, _, hparts, hrun, b, hrest, hat⟩)
      | body _ hnode hrun =>
        exact Or.inr (Or.inr ⟨_, _, _, _, _, _, _, hnode, hrun, b, hrest, hat⟩)
  · rintro (hat | ⟨before, e, after, us, s, n, hparts, hrun, b, hreach, hat⟩ |
      ⟨id, v, value, body, us, s, n, hnode, hrun, b, hreach, hat⟩)
    · exact ⟨a, .refl, hat⟩
    · exact ⟨b, .head (.part hmiss hparts hrun) hreach, hat⟩
    · exact ⟨b, .head (.body hmiss hnode hrun) hreach, hat⟩

/-- Among no expressions no call is begun. -/
theorem not_beginsAmong_nil : ¬BeginsAmong w s [] n c := by
  rintro ⟨before, e, after, -, -, -, h, -⟩
  exact absurd h.symm (List.append_ne_nil_of_right_ne_nil before (List.cons_ne_nil e after))

/-- A call is begun at the first expression, or among the rest if that ends well. -/
theorem beginsAmong_cons_iff : BeginsAmong w s (e :: es) n c ↔
    Begins w ⟨s, n, e⟩ c ∨
      ∃ us s₁ n₁, w.visit s e n = (.ok (us, s₁), n₁) ∧ BeginsAmong w s₁ es n₁ c := by
  constructor
  · rintro ⟨before, d, after, us, s₁, n₁, hes, hrun, hbegins⟩
    cases before with
    | nil =>
      obtain ⟨rfl, rfl⟩ := List.cons.inj hes
      obtain ⟨-, rfl, rfl⟩ := Walk.visitAll_nil_iff.mp hrun
      exact Or.inl hbegins
    | cons d' before =>
      obtain ⟨rfl, rfl⟩ := List.cons.inj hes
      obtain ⟨us', s₂, n₂, vs, he, hbefore, -⟩ := Walk.visitAll_cons_iff.mp hrun
      exact Or.inr ⟨us', s₂, n₂, he, before, d, after, vs, s₁, n₁, rfl, hbefore, hbegins⟩
  · rintro (hbegins | ⟨us, s₁, n₁, he, before, d, after, vs, s₂, n₂, rfl, hbefore, hbegins⟩)
    · exact ⟨[], e, es, [], s, n, rfl, rfl, hbegins⟩
    · exact ⟨e :: before, d, after, us ++ vs, s₂, n₂, rfl,
        Walk.visitAll_cons_iff.mpr ⟨us, s₁, n₁, vs, he, hbefore, rfl⟩, hbegins⟩

/-- Among one expression, a call is begun at it. -/
theorem beginsAmong_singleton_iff : BeginsAmong w s [e] n c ↔ Begins w ⟨s, n, e⟩ c := by
  rw [beginsAmong_cons_iff]
  exact or_iff_left fun ⟨_, _, _, _, h⟩ => not_beginsAmong_nil h

end Visit

/-- A call is begun by a visit of it if its arguments were lowered. -/
private theorem Visit.at_expr_iff {w : Walk σ} {c : CallNode} {d : Begun σ} {s : Progress}
    {n : Machine σ} (hmiss : s.memo.lookup c.id = none) : At w ⟨s, n, c.expr⟩ d ↔
      d.node = c ∧ ∃ s₁, w.visitAll s c.call.args n = (.ok (d.inputs, s₁), d.machine) := by
  constructor
  · rintro ⟨-, hnode, s₁, hrun⟩
    obtain rfl := CallNode.expr_inj hnode
    exact ⟨rfl, s₁, hrun⟩
  · rintro ⟨rfl, hrun⟩
    exact ⟨hmiss, rfl, hrun⟩

/-- The call is begun while the function is lowered. -/
def Walk.Begins (w : Walk σ) (f : Function) (m : Machine σ) (c : Begun σ) : Prop :=
  ∃ a, w.Visits f m a ∧ a.At w c

/-- When the parameters were bound, that is the same as being begun for the body. -/
theorem Walk.begins_iff_body {w : Walk σ} {f : Function} {m n : Machine σ} {inputs : List Tensor}
    {s : Progress} {c : Begun σ} (h : w.bindParams .start f.params m = (.ok (inputs, s), n)) :
    Visit.Begins w ⟨s, n, f.body⟩ c ↔ w.Begins f m c := by
  constructor
  · rintro ⟨a, hreach, hat⟩
    exact ⟨a, ⟨inputs, s, n, h, hreach⟩, hat⟩
  · rintro ⟨a, ⟨inputs', s', n', h', hreach⟩, hat⟩
    rw [h] at h'
    cases h'
    exact ⟨a, hreach, hat⟩

/-! ### From one call to the next -/

namespace Walk

/-- A statement about the calls that were begun and the machine at hand, which stays true when
numbers are taken from the supply and when a call is lowered, in whatever way that ends. -/
structure LogRule (w : Walk σ) (P : List (Begun σ) → Machine σ → Prop) : Prop where
  numbers : ∀ log n next, P log n → P log { n with next }
  call : ∀ log c, P log c.machine → P (log ++ [c]) (c.after w)

section

variable {w : Walk σ} {P : List (Begun σ) → Machine σ → Prop} {k : Catalogue}
  {log new : List (Begun σ)} {begins begins' : Begun σ → Prop} {calls : List CallNode}
  {r : Outcome (List Tensor × Progress) × Machine σ} {S : List CallNode → Progress → Prop}

private theorem LogRule.plain {Q : α → Prop} {x : Action σ α} {n : Machine σ} (hP : w.LogRule P)
    (hx : Plain Q x) (h : P log n) : P log (x n).2 := by
  rw [hx.machine n]
  exact hP.numbers log n _ h

/-- What a visit has done after the calls `log` were begun, if it is to lower the calls `calls` and
it has ended with `r`: it has begun the calls `new`, and if it has ended well, all there are. -/
structure Logged (P : List (Begun σ) → Machine σ → Prop) (S : List CallNode → Progress → Prop)
    (log : List (Begun σ)) (begins : Begun σ → Prop) (calls : List CallNode)
    (r : Outcome (List Tensor × Progress) × Machine σ) (new : List (Begun σ)) : Prop where
  mem_iff : ∀ c, c ∈ new ↔ begins c
  holds : P (log ++ new) r.2
  first : (log ++ new).map Begun.node <+: noteAllBy CallNode.id (log.map Begun.node) calls
  all : ∀ ts s, r.1 = .ok (ts, s) →
    (log ++ new).map Begun.node = noteAllBy CallNode.id (log.map Begun.node) calls ∧
      S ((log ++ new).map Begun.node) s

namespace Logged

variable {S' : List CallNode → Progress → Prop} {calls' : List CallNode} {new' : List (Begun σ)}
  {r' : Outcome (List Tensor × Progress) × Machine σ}

/-- Nothing is begun where there is nothing to begin. -/
theorem nothing (hbegins : ∀ c, ¬begins c) (hholds : P log r.2)
    (hcalls : noteAllBy CallNode.id (log.map Begun.node) calls = log.map Begun.node)
    (hS : ∀ ts s, r.1 = .ok (ts, s) → S (log.map Begun.node) s) :
    Logged P S log begins calls r [] := by
  refine ⟨fun c => ⟨fun h => absurd h List.not_mem_nil, fun h => absurd h (hbegins c)⟩, ?_, ?_, ?_⟩
  · rwa [List.append_nil]
  · rw [List.append_nil]
    exact ⟨[], (List.append_nil _).trans hcalls.symm⟩
  · rw [List.append_nil, hcalls]
    exact fun ts s hr => ⟨rfl, hS ts s hr⟩

private theorem imp_iff (h : Logged P S log begins calls r new) (hiff : ∀ c, begins c ↔ begins' c) :
    Logged P S log begins' calls r new :=
  ⟨fun c => (h.mem_iff c).trans (hiff c), h.holds, h.first, h.all⟩

/-- What is done afterwards does not touch the machine, and it has ended well only if the visit
has. -/
theorem handOn (h : Logged P S log begins calls r new) (hmachine : r'.2 = r.2)
    (hok : ∀ ts s, r'.1 = .ok (ts, s) → ∃ us s₁, r.1 = .ok (us, s₁) ∧
      ∀ done, done = noteAllBy CallNode.id (log.map Begun.node) calls → S done s₁ → S' done s) :
    Logged P S' log begins calls r' new := by
  refine ⟨h.mem_iff, hmachine ▸ h.holds, h.first, fun ts s hr => ?_⟩
  obtain ⟨us, s₁, hr₁, hS⟩ := hok ts s hr
  obtain ⟨hdone, hsettled⟩ := h.all us s₁ hr₁
  exact ⟨hdone, hS _ hdone hsettled⟩

/-- The next visit goes on from where the first one has ended, if that has ended well. -/
theorem bind {x : Action σ (List Tensor × Progress)} {n : Machine σ}
    (hx : Logged P S log begins calls (x n) new) (S' : List CallNode → Progress → Prop)
    (calls' : List CallNode)
    (f : List Tensor × Progress → Action σ (List Tensor × Progress))
    (next : List Tensor → Progress → Machine σ → Begun σ → Prop)
    (hf : ∀ ts s, (x n).1 = .ok (ts, s) → S ((log ++ new).map Begun.node) s → ∃ new',
      Logged P S' (log ++ new) (next ts s (x n).2) calls' (f (ts, s) (x n).2) new') :
    ∃ new', Logged P S' log
      (fun c => begins c ∨ ∃ ts s n', x n = (.ok (ts, s), n') ∧ next ts s n' c)
      (calls ++ calls') ((x >>= f) n) new' := by
  obtain ⟨⟨ts, s⟩, hr, hrun⟩ | ⟨hfails, hmachine, hfails'⟩ := bind_run x f n
  · obtain ⟨hdone, hS⟩ := hx.all ts s hr
    obtain ⟨new', h'⟩ := hf ts s hr hS
    refine ⟨new ++ new', fun c => ?_, ?_, ?_, ?_⟩
    · rw [List.mem_append, hx.mem_iff, h'.mem_iff]
      refine or_congr_right ⟨fun h => ⟨ts, s, _, Prod.ext hr rfl, h⟩, ?_⟩
      rintro ⟨us, s₁, n', hx', h⟩
      rw [hx'] at hr h' ⊢
      obtain ⟨rfl, rfl⟩ := Prod.mk.inj (Outcome.ok.inj hr)
      exact h
    · rw [hrun, ← List.append_assoc]
      exact h'.holds
    · rw [← List.append_assoc, noteAllBy_append, ← hdone]
      exact h'.first
    · rw [hrun, ← List.append_assoc, noteAllBy_append, ← hdone]
      exact h'.all
  · refine ⟨new, fun c => ?_, hmachine ▸ hx.holds, ?_, fun ts s hr => absurd hr (hfails' _)⟩
    · rw [hx.mem_iff]
      refine (or_iff_left ?_).symm
      rintro ⟨us, s, n', hx', -⟩
      exact hfails _ (congrArg Prod.fst hx')
    · rw [noteAllBy_append]
      exact hx.first.trans (prefix_noteAllBy CallNode.id calls' _)

end Logged

variable {s : Progress} {n : Machine σ} {e : Expr}

/-- A visit ends with what was kept, or the node is lowered and then left. -/
theorem Logged.meet (he : e.In k) (hholds : P log n) (hsettled : Settled k (log.map Begun.node) s)
    (hnode : s.memo.lookup e.id = none → ∃ new,
      Logged P (Entered k e.id) log (Visit.Begins w ⟨s, n, e⟩) e.calls (w.lowerNode s e n) new) :
    ∃ new, Logged P (Settled k) log (Visit.Begins w ⟨s, n, e⟩) e.calls (w.visit s e n) new := by
  cases hmemo : s.memo.lookup e.id with
  | some ts =>
    -- its calls were lowered when the node was left
    have hcalls := hsettled.calls e.id (by simp [hmemo])
    rw [he.node] at hcalls
    rw [w.visit_of_lookup hmemo]
    refine ⟨[], .nothing (fun c => Visit.not_begins_of_lookup hmemo) hholds
      (noteAllBy_of_mem hcalls) fun us s' hr => ?_⟩
    obtain ⟨-, rfl⟩ := Prod.mk.inj (Outcome.ok.inj hr)
    exact hsettled
  | none =>
    obtain ⟨new, hnew⟩ := hnode hmemo
    rw [w.visit_of_lookup_none hmemo]
    refine ⟨new, hnew.handOn (bind_machine (fun _ _ => rfl) _ _) fun ts s' hr => ?_⟩
    obtain ⟨⟨us, s₁⟩, n₁, hlower, hend⟩ := bind_eq_ok_iff.mp (Prod.ext hr rfl)
    obtain ⟨rfl, rfl, -⟩ := pure_pair_eq_ok_iff.mp hend
    refine ⟨us, s₁, congrArg Prod.fst hlower, ?_⟩
    rintro done rfl hentered
    exact hentered.leave he (fun c hc => key_mem_noteAllBy hc _) us

/-- What is begun for a node that is no call and no definition is begun for its parts. -/
theorem begins_iff_parts {es : List Expr} (hmiss : s.memo.lookup e.id = none)
    (hparts : e.parts = es) (hcall : ∀ c : CallNode, e ≠ c.expr)
    (hlet : ∀ id v value body, e ≠ .letIn id v value body) (c : Begun σ) :
    Visit.BeginsAmong w s es n c ↔ Visit.Begins w ⟨s, n, e⟩ c := by
  have hmissed : Visit.Missed ⟨s, n, e⟩ := hmiss
  have hnode : ¬Visit.At w ⟨s, n, e⟩ c := fun h => hcall c.node h.node
  have hunder : ¬Visit.BeginsUnder w ⟨s, n, e⟩ c := by
    rintro ⟨id, v, value, body, -, -, -, heq, -⟩
    exact hlet id v value body heq
  rw [Visit.begins_iff hmissed, or_iff_right hnode, or_iff_left hunder, ← hparts]

/-- A call is begun when its arguments were lowered. -/
theorem begins_iff_call {c : CallNode} (hmiss : s.memo.lookup c.id = none) (d : Begun σ) :
    (Visit.BeginsAmong w s c.call.args n d ∨ ∃ inputs s₁ n₁,
        w.visitAll s c.call.args n = (.ok (inputs, s₁), n₁) ∧ d = ⟨c, inputs, n₁⟩) ↔
      Visit.Begins w ⟨s, n, c.expr⟩ d := by
  have hmissed : Visit.Missed ⟨s, n, c.expr⟩ := hmiss
  have hunder : ¬Visit.BeginsUnder w ⟨s, n, c.expr⟩ d := by
    rintro ⟨id, v, value, body, -, -, -, heq, -⟩
    cases heq
  rw [Visit.begins_iff hmissed, or_iff_left hunder, or_comm, Visit.at_expr_iff hmiss]
  refine or_congr_left ⟨?_, ?_⟩
  · rintro ⟨inputs, s₁, n₁, hrun, rfl⟩
    exact ⟨rfl, s₁, hrun⟩
  · rintro ⟨rfl, s₁, hrun⟩
    exact ⟨d.inputs, s₁, d.machine, hrun, rfl⟩

/-- What is begun for a definition is begun for the value, or else for what stands under it. -/
theorem begins_iff_letIn {id : Nat} {v : Var} {value body : Expr}
    (hmiss : s.memo.lookup id = none) (c : Begun σ) :
    (Visit.Begins w ⟨s, n, value⟩ c ∨ ∃ us s₁ n₁, w.visit s value n = (.ok (us, s₁), n₁) ∧
        Visit.Begins w ⟨s₁.bind v us, n₁, body⟩ c) ↔
      Visit.Begins w ⟨s, n, .letIn id v value body⟩ c := by
  have hmissed : Visit.Missed ⟨s, n, .letIn id v value body⟩ := hmiss
  have hnode : ¬Visit.At w ⟨s, n, .letIn id v value body⟩ c := fun h => nomatch h.node
  rw [Visit.begins_iff hmissed, or_iff_right hnode, ← Visit.beginsAmong_singleton_iff]
  refine or_congr_right ⟨?_, ?_⟩
  · rintro ⟨us, s₁, n₁, hrun, hbegins⟩
    exact ⟨id, v, value, body, us, s₁, n₁, rfl, hrun, hbegins⟩
  · rintro ⟨id', v', value', body', us, s₁, n₁, hnode, hrun, hbegins⟩
    cases hnode
    exact ⟨us, s₁, n₁, hrun, hbegins⟩

/-- Where a call is finished, it is begun. -/
private theorem Logged.finishCall (hP : w.LogRule P) (c : Begun σ) (hholds : P log c.machine)
    (hnew : c.node.id ∉ (log.map Begun.node).map CallNode.id)
    (hsettled : Settled k (log.map Begun.node) s) :
    Logged P (Entered k c.node.id) log (fun d => d = c) [c.node]
      (w.finishCall s c.node.call c.inputs c.machine) [c] := by
  have hcalls : noteAllBy CallNode.id (log.map Begun.node) [c.node] =
      (log ++ [c]).map Begun.node := by
    rw [List.map_append]
    exact if_neg hnew
  refine ⟨fun d => List.mem_singleton, ?_, hcalls ▸ List.prefix_refl _, fun ts s' hr => ?_⟩
  · rw [c.after_eq w s]
    exact hP.call log c hholds
  · rw [hcalls, List.map_append]
    exact ⟨rfl, hsettled.finish (finishCall_tables (Prod.ext hr rfl)).1 c.node⟩

end

section

variable {w : Walk σ} {P : List (Begun σ) → Machine σ → Prop} {k : Catalogue}

mutual

/-- Lowering a node begins the calls that were not lowered before, as far as it gets. -/
theorem exists_logged (hP : w.LogRule P) : (e : Expr) → e.In k → ∀ {s : Progress} {n : Machine σ}
    {log : List (Begun σ)}, s.memo.lookup e.id = none → P log n →
    Settled k (log.map Begun.node) s → ∃ new, Logged P (Entered k e.id) log
      (Visit.Begins w ⟨s, n, e⟩) e.calls (w.lowerNode s e n) new
  | .var id v, he, s, n, log, hmiss, hholds, hsettled => by
    have hbegins (c : Begun σ) : ¬Visit.Begins w ⟨s, n, .var id v⟩ c := by
      rw [← begins_iff_parts hmiss rfl nofun nofun]
      exact Visit.not_beginsAmong_nil
    cases hlookup : s.bound.lookup v.id with
    | some us =>
      simp only [lowerNode, hlookup]
      refine ⟨[], .nothing hbegins hholds rfl fun ts s' hr => ?_⟩
      obtain ⟨-, rfl⟩ := Prod.mk.inj (Outcome.ok.inj hr)
      exact hsettled.entered id
    | none =>
      simp only [lowerNode, hlookup]
      exact ⟨[], .nothing hbegins hholds rfl nofun⟩
  | .const id t data, he, s, n, log, hmiss, hholds, hsettled => by
    have hbegins (c : Begun σ) : ¬Visit.Begins w ⟨s, n, .const id t data⟩ c := by
      rw [← begins_iff_parts hmiss rfl nofun nofun]
      exact Visit.not_beginsAmong_nil
    refine ⟨[], .nothing hbegins ?_ rfl fun ts s' hr => ?_⟩
    · have hconst := hP.plain (plain_constantTensor w.aspect t) hholds
      rwa [← bind_machine (f := fun t => pure ([t], s)) (fun _ _ => rfl)] at hconst
    · obtain ⟨u, n₁, -, hend⟩ := bind_eq_ok_iff.mp (Prod.ext hr rfl)
      obtain ⟨-, rfl, -⟩ := pure_pair_eq_ok_iff.mp hend
      exact hsettled.entered id
  | .call id op attrs args type, he, s, n, log, hmiss, hholds, hsettled => by
    let c : CallNode := ⟨id, op, attrs, args, type⟩
    have hnew : c.id ∉ (log.map Begun.node).map CallNode.id := hsettled.notMem hmiss
    obtain ⟨new, hargs⟩ := exists_logged_visitAll hP args he.2 hholds hsettled
    obtain ⟨new', hcall⟩ := hargs.bind (Entered k id) [c] (fun r => w.finishCall r.2 c.call r.1)
      (fun inputs _ n₁ d => d = ⟨c, inputs, n₁⟩) fun inputs s₁ hr hsettled₁ => by
        obtain ⟨hdone, -⟩ := hargs.all inputs s₁ hr
        refine ⟨_, .finishCall hP ⟨c, inputs, _⟩ hargs.holds ?_ hsettled₁⟩
        rw [hdone]
        exact id_notMem_noteAllBy he hnew
    exact ⟨new', hcall.imp_iff (begins_iff_call (c := c) hmiss)⟩
  | .tuple id fields, he, s, n, log, hmiss, hholds, hsettled => by
    obtain ⟨new, hfields⟩ := exists_logged_visitAll hP fields he.2 hholds hsettled
    refine ⟨new, (hfields.imp_iff (begins_iff_parts hmiss rfl nofun nofun)).handOn rfl ?_⟩
    exact fun ts s' hr => ⟨ts, s', hr, fun _ _ hs => hs.entered id⟩
  | .proj id e i, he, s, n, log, hmiss, hholds, hsettled => by
    obtain ⟨new, he⟩ := Logged.meet he.2 hholds hsettled fun hmiss' =>
      exists_logged hP e he.2 hmiss' hholds hsettled
    have hbegins (c : Begun σ) : Visit.Begins w ⟨s, n, e⟩ c ↔
        Visit.Begins w ⟨s, n, .proj id e i⟩ c := by
      rw [← Visit.beginsAmong_singleton_iff]
      exact begins_iff_parts hmiss rfl nofun nofun c
    refine ⟨new, (he.imp_iff hbegins).handOn (bind_machine (fun a n => ?_) _ _) fun ts s' hr => ?_⟩
    · dsimp only
      cases projectTensors e.type a.1 i with
      | ok field => rfl
      | error why => rfl
    · obtain ⟨⟨us, s₁⟩, n₁, hvisit, hend⟩ := bind_eq_ok_iff.mp (Prod.ext hr rfl)
      refine ⟨us, s₁, congrArg Prod.fst hvisit, fun _ _ hs => ?_⟩
      dsimp only at hend
      cases hproject : projectTensors e.type us i with
      | ok field =>
        rw [hproject] at hend
        obtain ⟨-, rfl, -⟩ := pure_pair_eq_ok_iff.mp hend
        exact hs.entered id
      | error why =>
        rw [hproject] at hend
        cases hend
  | .letIn id v value body, he, s, n, log, hmiss, hholds, hsettled => by
    obtain ⟨new, hvalue⟩ := Logged.meet he.2.1 hholds hsettled fun hmiss' =>
      exists_logged hP value he.2.1 hmiss' hholds hsettled
    obtain ⟨new', hboth⟩ := hvalue.bind (Settled k) body.calls
      (fun r => w.visit (r.2.bind v r.1) body)
      (fun us s₁ n₁ => Visit.Begins w ⟨s₁.bind v us, n₁, body⟩) fun us s₁ hr hsettled₁ => by
        have hbound : Settled k _ (s₁.bind v us) := ⟨hsettled₁.left, hsettled₁.calls⟩
        exact Logged.meet he.2.2 hvalue.holds hbound fun hmiss' =>
          exists_logged hP body he.2.2 hmiss' hvalue.holds hbound
    refine ⟨new', (hboth.imp_iff (begins_iff_letIn hmiss)).handOn rfl ?_⟩
    exact fun ts s' hr => ⟨ts, s', hr, fun _ _ hs => hs.entered id⟩

/-- The same of several nodes, one after the other. -/
theorem exists_logged_visitAll (hP : w.LogRule P) : (es : List Expr) → Expr.InAll k es →
    ∀ {s : Progress} {n : Machine σ} {log : List (Begun σ)}, P log n →
    Settled k (log.map Begun.node) s → ∃ new, Logged P (Settled k) log
      (Visit.BeginsAmong w s es n) (Expr.callsAll es) (w.visitAll s es n) new
  | [], hes, s, n, log, hholds, hsettled => by
    refine ⟨[], .nothing (fun c => Visit.not_beginsAmong_nil) hholds rfl fun ts s' hr => ?_⟩
    obtain ⟨-, rfl⟩ := Prod.mk.inj (Outcome.ok.inj hr)
    exact hsettled
  | e :: es, hes, s, n, log, hholds, hsettled => by
    obtain ⟨new, hfirst⟩ := Logged.meet hes.1 hholds hsettled fun hmiss' =>
      exists_logged hP e hes.1 hmiss' hholds hsettled
    obtain ⟨new', hboth⟩ := hfirst.bind (Settled k) (Expr.callsAll es)
      (fun r => w.visitAll r.2 es >>= fun r' => pure (r.1 ++ r'.1, r'.2))
      (fun _ s₁ n₁ => Visit.BeginsAmong w s₁ es n₁) fun ts s₁ hr hsettled₁ => by
        obtain ⟨new₁, hrest⟩ := exists_logged_visitAll hP es hes.2 hfirst.holds hsettled₁
        refine ⟨new₁, hrest.handOn (bind_machine (fun _ _ => rfl) _ _) fun us s' hr' => ?_⟩
        obtain ⟨⟨us', s₂⟩, n₂, hrun, hend⟩ := bind_eq_ok_iff.mp (Prod.ext hr' rfl)
        obtain ⟨-, rfl, -⟩ := pure_pair_eq_ok_iff.mp hend
        exact ⟨us', s₂, congrArg Prod.fst hrun, fun _ _ hs => hs⟩
    exact ⟨new', hboth.imp_iff fun c => Visit.beginsAmong_cons_iff.symm⟩

end

end

/-- **The calls that a lowering begins** are the first ones of the calls of the function in the
order of evaluation, each of them once; and all of them if the lowering ends well. What stays true
when numbers are taken and when a call is lowered is true in the end, in whatever way the lowering
ends. -/
theorem lower_log (w : Walk σ) {P : List (Begun σ) → Machine σ → Prop} (hP : w.LogRule P)
    {f : Function} (hf : f.Coherent) {m : Machine σ} (hm : P [] m) :
    ∃ log, (∀ c, c ∈ log ↔ w.Begins f m c) ∧ P log (w.lower f m).2 ∧
      log.map Begun.node <+: f.callNodes ∧
      ∀ l, (w.lower f m).1 = .ok l → log.map Begun.node = f.callNodes := by
  obtain ⟨k, hk⟩ := hf
  have hparams := hP.plain (w.plain_bindParams f.params .start) hm
  obtain ⟨⟨inputs, s⟩, hr, hrun⟩ | ⟨hfails, hmachine, hfails'⟩ := bind_run
    (w.bindParams .start f.params) (fun r => w.visit r.2 f.body >>= fun r' =>
      pure (Lowered.mk r.1 r'.1 r'.2.calls.reverse r'.2.ops.reverse)) m
  · have hstart : w.bindParams .start f.params m = (.ok (inputs, s), _) := Prod.ext hr rfl
    have hsettled : Settled k [] s := by
      refine ⟨fun c hc => absurd hc List.not_mem_nil, fun i hi => ?_⟩
      rw [(bindParams_memo hstart).1] at hi
      exact absurd rfl hi
    obtain ⟨log, hlog⟩ : ∃ log, Logged P (Settled k) [] (Visit.Begins w ⟨s, _, f.body⟩)
        f.body.calls (w.visit s f.body _) log :=
      Logged.meet hk hparams hsettled fun hmiss =>
        exists_logged hP f.body hk hmiss hparams hsettled
    have hlower : w.lower f m = _ := hrun
    refine ⟨log, fun c => (hlog.mem_iff c).trans (begins_iff_body hstart), ?_, hlog.first, ?_⟩
    · rw [hlower, bind_machine (fun _ _ => rfl)]
      exact hlog.holds
    · intro l hl
      rw [hlower] at hl
      obtain ⟨⟨ts, s'⟩, n', hvisit, -⟩ := bind_eq_ok_iff.mp (Prod.ext hl rfl)
      exact (hlog.all ts s' (congrArg Prod.fst hvisit)).1
  · have hlower : (w.lower f m).2 = _ := hmachine
    refine ⟨[], fun c => ⟨fun h => absurd h List.not_mem_nil, ?_⟩, hlower ▸ hparams,
      List.nil_prefix, fun l hl => absurd hl (hfails' l)⟩
    rintro ⟨a, ⟨inputs, s, n, hstart, -⟩, -⟩
    exact absurd (congrArg Prod.fst hstart) (hfails _)

end Walk

end TensorLowering

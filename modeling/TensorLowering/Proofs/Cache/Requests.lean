import TensorLowering.Proofs.Cache.Memo

/-!
# Requests that collaborators issue

Strategies, implementations and shape functions may issue requests while they are at work, to the
engine that called them. `Engine.request` is a request as they see it: its answer tells how it
ended, and so they may go on if it failed. Collaborators that do nothing else with the caches and
the names (`Action.Issues`) make an engine in which requests are nested down to a given depth
(`Engine.nested`).

What a request does with the engine is little: it lowers a function, it looks at the caches, and it
changes or forgets entries. A property of actions that is kept by all of this (`Action.Serving`)
passes from the collaborators to a request (`Action.Serving.request`), and from the requests of one
depth to the collaborators of the next. So it holds of whatever happens in a nested engine, if all
quiet actions have it (`Action.Service.issues`).
-/

namespace TensorLowering

open TensorLowering.Action

variable {σ α β : Type}

/-! ### Requests as actions -/

/-- Whether the request that is answered waits for itself. -/
def Answer.stalls : Answer → Bool
  | .artifact .stalled => true
  | .entryPoint .stalled => true
  | _ => false

/-- Issue a request. Its answer tells how it ended, so whoever issued it may go on if it failed. -/
def Engine.request (g : Engine σ) (r : Request) : Action σ Answer := fun m =>
  if (g.serve r m).1.stalls then (.stalled, (g.serve r m).2)
  else (.ok (g.serve r m).1, (g.serve r m).2)

/-- An action that touches the caches and the names only by issuing requests. -/
inductive Action.Issues (ask : Request → Action σ Answer) :
    {α : Type} → (α → Prop) → Action σ α → Prop where
  | quiet {α : Type} {P : α → Prop} {x : Action σ α} : Quiet P x → Issues ask P x
  | ask (r : Request) : Issues ask (fun _ => True) (ask r)
  | bind {α β : Type} {P : α → Prop} {Q : β → Prop} {x : Action σ α} {f : α → Action σ β} :
      Issues ask P x → (∀ a, P a → Issues ask Q (f a)) → Issues ask Q (x >>= f)
  | withTarget {α : Type} {P : α → Prop} {x : Action σ α} (target : Target) :
      Issues ask P x → Issues ask P (Action.withTarget target x)
  | suspendIf {α : Type} {P : α → Prop} {x : Action σ α} (suspended : Bool) :
      Issues ask P x → Issues ask P (Action.suspendIf suspended x)

private theorem Action.discipline_issues (ask : Request → Action σ Answer) :
    Discipline (Issues ask) where
  quiet := .quiet
  bind := .bind
  withTarget := .withTarget
  suspendIf := .suspendIf

/-- An engine whose collaborators may issue requests to it, and these in turn, down to a given
depth. A request that would be issued deeper than that is not answered. -/
def Engine.nested (config : Config) (C : (Request → Action σ Answer) → Collaborators σ) :
    Nat → Engine σ
  | 0 => ⟨config, C fun _ => Action.stall⟩
  | depth + 1 => ⟨config, C (nested config C depth).request⟩

/-! ### What requests keep -/

/-- Do something to its end, and tell how it ended. What waits for itself has no end. -/
def Action.settle (x : Action σ α) : Action σ (Outcome α) := fun m =>
  match x m with
  | (.stalled, m) => (.stalled, m)
  | (o, m) => (.ok o, m)

/-- A request that does something to its end. -/
private theorem Engine.request_settle {g : Engine σ} {r : Request} {x : Action σ α}
    {answer : Outcome α → Answer} {m : Machine σ} (hstalled : (answer .stalled).stalls = true)
    (hends : ∀ o, o ≠ .stalled → (answer o).stalls = false)
    (hserve : g.serve r m = (answer (x m).1, (x m).2)) :
    g.request r m = (Action.settle x >>= fun o => pure (answer o)) m := by
  change _ = Action.bind _ _ m
  unfold Engine.request Action.bind Action.settle
  rw [hserve]
  rcases x m with ⟨o, m'⟩
  cases o with
  | ok a => exact if_neg (Bool.eq_false_iff.mp (hends (.ok a) nofun))
  | fault e => exact if_neg (Bool.eq_false_iff.mp (hends (.fault e) nofun))
  | panic => exact if_neg (Bool.eq_false_iff.mp (hends .panic nofun))
  | stalled => exact if_pos hstalled

/-- A property of actions that is kept by all that a lowering and a request do with actions. -/
structure Action.Serving (K : Action.Property σ) : Prop extends Action.Regime K where
  mapFault : ∀ {α : Type} {P : α → Prop} {x : Action σ α} (f : Fault → Fault),
    K P x → K P (Action.mapFault f x)
  settle : ∀ {α : Type} {P : α → Prop} {x : Action σ α},
    K P x → K (fun _ => True) (Action.settle x)
  stall : ∀ {α : Type} {P : α → Prop}, K P (Action.stall : Action σ α)
  read : ∀ {α : Type} (f : Machine σ → α), K (fun _ => True) (Action.read f)
  /-- An entry is changed, but not its artifact. -/
  touch : ∀ (aspect : Aspect) (n : Nat) {f : Entry → Entry}, (∀ e, (f e).artifact = e.artifact) →
    K (fun _ => True) (Action.modify fun m : Machine σ =>
      m.modifyCache aspect fun c => c.modifyEntry n f)
  clear : K (fun _ => True) (Action.modify (Machine.clear (σ := σ)))
  obtainArtifact : ∀ (g : Engine σ) (aspect : Aspect) (key : CacheKey),
    K (fun _ => True) ((g.walk aspect key).lower key.source) →
      K (fun _ => True) (g.obtainArtifact aspect key)

/-- The same if all quiet actions have the property. -/
structure Action.Service (K : Action.Property σ) : Prop
  extends Action.Discipline K, Action.Serving K

namespace Action.Serving

variable {K : Action.Property σ} (hK : Action.Serving K) {g : Engine σ}

include hK

private theorem entryOf (aspect : Aspect) (n : Nat) :
    K (fun _ => True) (entryOf aspect n : Action σ Entry) := by
  have heq : (TensorLowering.entryOf aspect n : Action σ Entry) =
      Action.read (fun m => (m.cache aspect).content? n) >>= fun e? =>
        e?.elim Action.stall pure := by
    funext m
    change _ = Action.bind _ _ m
    unfold TensorLowering.entryOf Action.bind Action.read
    dsimp only
    cases (m.cache aspect).content? n <;> rfl
  rw [heq]
  refine hK.bind (hK.read _) fun e? _ => ?_
  cases e? with
  | some e => exact hK.pure trivial
  | none => exact hK.stall

private theorem forKey {source : Source} {target : Option Target} {act : CacheKey → Action σ α}
    (h : ∀ key, K (fun _ => True) (act key)) :
    K (fun _ => True) (Engine.forKey source target act) := by
  unfold Engine.forKey
  cases source.key? target with
  | error e => exact hK.plain (plain_fail e)
  | ok key => exact hK.mapFault _ (h key)

private theorem obtain (hg : g.collaborators.Keeps K) (aspect : Aspect) (key : CacheKey) :
    K (fun _ => True) (g.obtainArtifact aspect key) :=
  hK.obtainArtifact g aspect key (hK.lower (w := g.walk aspect key) hg key.source)

private theorem lowered (hg : g.collaborators.Keeps K) (aspect : Aspect) (source : Source)
    (target : Option Target) : K (fun _ => True) (g.lower aspect source target) := by
  refine hK.forKey fun key => hK.bind (hK.obtain hg aspect key) fun n _ => ?_
  exact hK.bind (hK.entryOf aspect n) fun _ _ => hK.pure trivial

private theorem jit (hg : g.collaborators.Keeps K) (source : Source) (target : Option Target) :
    K (fun _ => True) (g.jit source target) := by
  refine hK.forKey fun key => hK.bind (hK.obtain hg .values key) fun n _ => ?_
  refine hK.bind (hK.entryOf .values n) fun e _ => ?_
  cases e.entryPoint with
  | some p => exact hK.pure trivial
  | none =>
    refine hK.bind (hg.build e.artifact) fun p _ => ?_
    have htouch := hK.touch .values n (f := fun e => { e with entryPoint := some p }) fun _ => rfl
    exact hK.bind htouch fun _ _ => hK.pure trivial

/-- **A request keeps what the collaborators keep.** -/
theorem request (hg : g.collaborators.Keeps K) (r : Request) :
    K (fun _ => True) (g.request r) := by
  cases r with
  | lower aspect source target =>
    have heq : g.request (.lower aspect source target) =
        Action.settle (g.lower aspect source target) >>= fun o => pure (.artifact o) :=
      funext fun m => Engine.request_settle rfl (by rintro (_ | _ | _ | _) h <;> trivial) rfl
    rw [heq]
    exact hK.bind (hK.settle (hK.lowered hg aspect source target)) fun _ _ => hK.pure trivial
  | jit source target =>
    have heq : g.request (.jit source target) =
        Action.settle (g.jit source target) >>= fun o => pure (.entryPoint o) :=
      funext fun m => Engine.request_settle rfl (by rintro (_ | _ | _ | _) h <;> trivial) rfl
    rw [heq]
    exact hK.bind (hK.settle (hK.jit hg source target)) fun _ _ => hK.pure trivial
  | clear => exact hK.bind hK.clear fun _ _ => hK.pure trivial
  | items aspect => exact hK.read _

end Action.Serving

namespace Action.Service

variable {K : Action.Property σ} (hK : Action.Service K)

include hK

/-- What issues requests has every property that requests have, if the property is closed. -/
theorem of_issues {ask : Request → Action σ Answer} (hask : ∀ r, K (fun _ => True) (ask r))
    {P : α → Prop} {x : Action σ α} (h : Issues ask P x) : K P x := by
  induction h with
  | quiet h => exact hK.quiet h
  | ask r => exact hask r
  | bind _ _ ihx ihf => exact hK.bind ihx ihf
  | withTarget target _ ih => exact hK.withTarget target ih
  | suspendIf suspended _ ih => exact hK.suspendIf suspended ih

variable {config : Config} {C : (Request → Action σ Answer) → Collaborators σ}
  (hC : ∀ ask, (C ask).Keeps (Action.Issues ask))

include hC

/-- Collaborators that do nothing with the caches but issue requests keep it at every depth. -/
theorem nested (depth : Nat) : (Engine.nested config C depth).collaborators.Keeps K := by
  induction depth with
  | zero => exact (hC _).imp hK.toClosed fun h => hK.of_issues (fun _ => hK.stall) h
  | succ depth ih => exact (hC _).imp hK.toClosed fun h => hK.of_issues (hK.request ih) h

/-- **Whatever happens in a nested engine** keeps it. -/
theorem issues (depth : Nat) {P : α → Prop} {x : Action σ α}
    (hx : Issues (Engine.nested config C depth).request P x) : K P x :=
  hK.of_issues (hK.request (hK.nested hC depth)) hx

end Action.Service

/-! ### Collaborators that issue requests -/

/-- Issue requests in order. -/
def Engine.askAll (ask : Request → Action σ Answer) : List Request → Action σ Unit
  | [] => return ()
  | r :: rs => do
    let _ ← ask r
    askAll ask rs

/-- Requests that are asked one after the other have it. -/
theorem Action.Closed.askAll {K : Action.Property σ} (hK : Action.Closed K)
    {ask : Request → Action σ Answer} (hask : ∀ r, K (fun _ => True) (ask r)) (rs : List Request) :
    K (fun _ => True) (Engine.askAll ask rs) := by
  induction rs with
  | nil => exact hK.pure trivial
  | cons r rs ih => exact hK.bind (hask r) fun _ _ => ih

/-- To ask requests is to issue them. -/
theorem Engine.issues_askAll (ask : Request → Action σ Answer) (rs : List Request) :
    Issues ask (fun _ => True) (askAll ask rs) :=
  (discipline_issues ask).toClosed.askAll .ask rs

/-- A strategy that issues requests before it offers anything. -/
def Strategy.after (s : Strategy σ) (x : Action σ Unit) : Strategy σ :=
  fun attrs inputs type target => do
    x
    s attrs inputs type target

/-- Collaborators that compute every operator alike, but whose strategies issue requests first. -/
def Collaborators.asking (requests : String → List Request) (ask : Request → Action Unit Answer) :
    Collaborators Unit where
  strategy? own op := (Collaborators.pointwise.strategy? own op).map
    fun s => s.after (Engine.askAll ask (requests op))
  shapeFunction? := Collaborators.pointwise.shapeFunction?
  build := Collaborators.pointwise.build

/-- Collaborators that ask for what an operator needs only issue requests. -/
theorem Collaborators.asking_keeps (requests : String → List Request)
    (ask : Request → Action Unit Answer) : (asking requests ask).Keeps (Action.Issues ask) := by
  have hquiet : pointwise.Keeps Action.Quiet :=
    ⟨quiet_pointwise.strategy, quiet_pointwise.shapeFunction, quiet_pointwise.build⟩
  have hkeeps : pointwise.Keeps (Action.Issues ask) :=
    hquiet.imp (discipline_issues ask).toClosed .quiet
  refine ⟨fun own op s hs attrs inputs type target => ?_, hkeeps.shapeFunction, hkeeps.build⟩
  have hmap : (pointwise.strategy? own op).map
      (fun s => s.after (Engine.askAll ask (requests op))) = some s := hs
  obtain ⟨s', hs', rfl⟩ := Option.map_eq_some_iff.mp hmap
  exact .bind (Engine.issues_askAll ask (requests op)) fun _ _ =>
    hkeeps.strategy own op s' hs' attrs inputs type target

end TensorLowering

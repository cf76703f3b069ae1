import TensorLowering.Machine
import TensorLowering.Proofs.Tensor.Alike

/-!
# Actions side by side

Two actions on two machines are compared step by step. A `Correspondence` says what belongs
together on both sides at some moment: the registers of tensors, the numbers of symbolic variables
that correspond, which are one to one, and the tensors that may stand for each other. It grows while
the actions run.

Nothing else is known of the numbers: which of two comes before the other may be different on both
sides. As for tensors, two extremes are of interest. If any two may stand for each other
(`Correspondence.Loose`), tensors are known only by what they show when they are unfolded. If those
that do are one to one and have the same names (`Correspondence.Strict`), they are told apart on
both sides, and their names may be looked at.

Two actions run *side by side* (`Setting.SideBySide`) if, from machines that a correspondence
speaks of, they end alike: with the same fault, with a panic both, or with values that are related
in a correspondence that has grown. The relation is put together like the actions are
(`SideBySide.bind`). Of the machines only the supply of numbers is followed, and that the oracle
and what the collaborators keep stay the same (`Setting`).
-/

namespace TensorLowering

/-! ### Correspondences -/

/-- What belongs together on two sides. -/
structure Correspondence where
  left : Register
  right : Register
  /-- The numbers of symbolic variables that correspond. -/
  numbers : SymId → SymId → Prop
  /-- The tensors that may stand for each other. -/
  tensors : Tensor → Tensor → Prop
  drawn : ∀ i j, numbers i j → i.draw < left.next ∧ j.draw < right.next
  biUnique : Relator.BiUnique numbers

namespace Correspondence

/-- The tensors were made on their sides, may stand for each other, and look alike. -/
structure Same (w : Correspondence) (t t' : Tensor) : Prop where
  left : w.left.made t
  right : w.right.made t'
  related : w.tensors t t'
  alike : Tensor.Alike w.numbers w.left.params w.right.params t t'

/-- Lists of tensors that were made on their sides, and look alike one by one. -/
abbrev SameAll (w : Correspondence) : List Tensor → List Tensor → Prop := List.Forall₂ w.Same

/-- Tensors that correspond were made on their sides. -/
theorem made_of_same {w : Correspondence} {ts ts' : List Tensor} (h : w.SameAll ts ts') :
    (∀ t ∈ ts, w.left.made t) ∧ ∀ t ∈ ts', w.right.made t := by
  induction h with
  | nil =>
    constructor
    · intro t ht
      exact absurd ht List.not_mem_nil
    · intro t ht
      exact absurd ht List.not_mem_nil
  | cons hsame _ ih =>
    rw [List.forall_mem_cons, List.forall_mem_cons]
    exact ⟨⟨hsame.left, ih.1⟩, hsame.right, ih.2⟩

/-- What a correspondence can become. -/
structure Grows (w w' : Correspondence) : Prop where
  left : w.left.Grows w'.left
  right : w.right.Grows w'.right
  numbers : ∀ i j, w.numbers i j → w'.numbers i j
  tensors : ∀ t t', w.tensors t t' → w'.tensors t t'

variable {w w' w'' : Correspondence} {t t' : Tensor}

theorem Grows.refl (w : Correspondence) : w.Grows w :=
  ⟨Register.Grows.refl _, Register.Grows.refl _, fun _ _ h => h, fun _ _ h => h⟩

theorem Grows.trans (h : w.Grows w') (h' : w'.Grows w'') : w.Grows w'' :=
  ⟨h.left.trans h'.left, h.right.trans h'.right,
    fun i j hij => h'.numbers i j (h.numbers i j hij),
    fun t t' ht => h'.tensors t t' (h.tensors t t' ht)⟩

/-- What looked alike still does. -/
theorem Grows.same (h : w.Grows w') (ht : w.Same t t') : w'.Same t t' := by
  have halike := ht.alike.mono h.numbers
  rw [← h.left.params, ← h.right.params] at halike
  exact ⟨h.left.made t ht.left, h.right.made t' ht.right, h.tensors t t' ht.related, halike⟩

/-- Tensors that correspond go on to do so. -/
theorem Grows.sameAll (h : w.Grows w') {ts ts' : List Tensor} (hts : w.SameAll ts ts') :
    w'.SameAll ts ts' :=
  hts.imp fun _ _ ht => h.same ht

/-- The correspondence with registers that have grown, and nothing new that belongs together. -/
def onto (w : Correspondence) {left right : Register} (hl : w.left.Grows left)
    (hr : w.right.Grows right) : Correspondence where
  left := left
  right := right
  numbers := w.numbers
  tensors := w.tensors
  drawn i j hij := by
    have hlt := w.drawn i j hij
    exact ⟨Nat.lt_of_lt_of_le hlt.1 hl.next, Nat.lt_of_lt_of_le hlt.2 hr.next⟩
  biUnique := w.biUnique

/-- A correspondence grows with its registers. -/
theorem grows_onto (w : Correspondence) {left right : Register} (hl : w.left.Grows left)
    (hr : w.right.Grows right) : w.Grows (w.onto hl hr) :=
  ⟨hl, hr, fun _ _ h => h, fun _ _ h => h⟩

/-- A symbolic variable is made on each side. The lots that are drawn for it are any numbers. -/
def pair (w : Correspondence) (lot lot' : Nat) : Correspondence where
  left := w.left.skip (w.left.next + 1) (Nat.le_succ _)
  right := w.right.skip (w.right.next + 1) (Nat.le_succ _)
  numbers i j := w.numbers i j ∨ (i = ⟨lot, w.left.next⟩ ∧ j = ⟨lot', w.right.next⟩)
  tensors := w.tensors
  drawn i j hij := by
    obtain hij | ⟨rfl, rfl⟩ := hij
    · have hlt := w.drawn i j hij
      exact ⟨Nat.lt_succ_of_lt hlt.1, Nat.lt_succ_of_lt hlt.2⟩
    · exact ⟨Nat.lt_succ_self _, Nat.lt_succ_self _⟩
  biUnique := by
    -- neither number was drawn before
    constructor
    · intro i j i' hi hi'
      obtain hi | ⟨rfl, rfl⟩ := hi
      · obtain hi' | ⟨rfl, rfl⟩ := hi'
        · exact w.biUnique.1 hi hi'
        · exact absurd (w.drawn _ _ hi).2 (Nat.lt_irrefl _)
      · obtain hi' | ⟨rfl, -⟩ := hi'
        · exact absurd (w.drawn _ _ hi').2 (Nat.lt_irrefl _)
        · rfl
    · intro i j j' hj hj'
      obtain hj | ⟨rfl, rfl⟩ := hj
      · obtain hj' | ⟨rfl, rfl⟩ := hj'
        · exact w.biUnique.2 hj hj'
        · exact absurd (w.drawn _ _ hj).1 (Nat.lt_irrefl _)
      · obtain hj' | ⟨-, rfl⟩ := hj'
        · exact absurd (w.drawn _ _ hj').1 (Nat.lt_irrefl _)
        · rfl

/-- A correspondence grows when the next numbers are paired. -/
theorem grows_pair (w : Correspondence) (lot lot' : Nat) : w.Grows (w.pair lot lot') :=
  ⟨w.left.grows_skip _ (Nat.le_succ _), w.right.grows_skip _ (Nat.le_succ _),
    fun _ _ h => Or.inl h, fun _ _ h => h⟩

/-- The correspondence with registers that have grown by one tensor each. These stand for each
other. -/
def adding (w : Correspondence) {left right : Register} (hl : w.left.Grows left)
    (hr : w.right.Grows right) (t t' : Tensor) : Correspondence :=
  { w.onto hl hr with tensors := fun u u' => w.tensors u u' ∨ (u = t ∧ u' = t') }

private theorem grows_adding (w : Correspondence) {left right : Register} (hl : w.left.Grows left)
    (hr : w.right.Grows right) (t t' : Tensor) : w.Grows (w.adding hl hr t t') :=
  ⟨hl, hr, fun _ _ h => h, fun _ _ h => Or.inl h⟩

/-- The correspondence of two registers in which old symbolic variables correspond to themselves,
and no others do. -/
def identical (left right : Register) (tensors : Tensor → Tensor → Prop) {old : Nat}
    (h : old ≤ left.next) (h' : old ≤ right.next) : Correspondence where
  left := left
  right := right
  numbers i j := i = j ∧ i.draw < old
  tensors := tensors
  drawn i j := by
    rintro ⟨rfl, hi⟩
    exact ⟨Nat.lt_of_lt_of_le hi h, Nat.lt_of_lt_of_le hi h'⟩
  biUnique := by
    constructor
    · rintro i j i' ⟨rfl, -⟩ ⟨rfl, -⟩
      rfl
    · rintro i j j' ⟨rfl, -⟩ ⟨rfl, -⟩
      rfl

/-! ### Tensors that stand for each other -/

/-- Any two tensors may stand for each other: they are known only by what they show when they are
unfolded. -/
def Loose (w : Correspondence) : Prop := ∀ t t', w.tensors t t'

/-- Tensors that stand for each other are told apart on both sides. They have the same name and are
made from tensors that stand for each other. -/
structure Strict (w : Correspondence) : Prop where
  biUnique : Relator.BiUnique w.tensors
  made : ∀ t t', w.tensors t t' → w.left.made t ∧ w.right.made t'
  name : ∀ t t', w.tensors t t' → t.name = t'.name
  inputs : ∀ t t', w.tensors t t' → List.Forall₂ w.tensors t.inputs t'.inputs

/-- A tensor is made on each side, and no symbolic variable. Their names are the same, if names
matter at all. -/
structure Adds (w w' : Correspondence) (t t' : Tensor) : Prop where
  grows : w.Grows w'
  numbers : w'.numbers = w.numbers
  tensors : ∀ u u', w'.tensors u u' ↔ w.tensors u u' ∨ (u = t ∧ u' = t')
  new : ¬w.left.made t ∧ ¬w.right.made t'
  same : w'.Same t t'
  name : w.Loose ∨ t.name = t'.name
  inputs : List.Forall₂ w.tensors t.inputs t'.inputs

/-- The correspondences are not left when numbers are drawn and when tensors are made. -/
structure Closed (D : Correspondence → Prop) : Prop where
  draw : ∀ w w', w.Grows w' → w'.tensors = w.tensors → D w → D w'
  make : ∀ w w' t t', w.Adds w' t t' → D w → D w'

/-- A loose correspondence stays so when it grows. -/
theorem Loose.grows (hw : w.Loose) (h : w.Grows w') : w'.Loose :=
  fun t t' => h.tensors t t' (hw t t')

/-- To be loose is closed: whatever is made or drawn, it stays so. -/
theorem closed_loose : Closed Loose :=
  ⟨fun _ _ h _ hw => hw.grows h, fun _ _ _ _ h hw => hw.grows h.grows⟩

/-- A strict correspondence stays so when no tensor is added. -/
theorem Strict.grows (hw : w.Strict) (h : w.Grows w') (htensors : w'.tensors = w.tensors) :
    w'.Strict := by
  constructor
  · rw [htensors]
    exact hw.biUnique
  · intro t t' ht
    rw [htensors] at ht
    exact ⟨h.left.made t (hw.made t t' ht).1, h.right.made t' (hw.made t t' ht).2⟩
  · rw [htensors]
    exact hw.name
  · rw [htensors]
    exact hw.inputs

/-- Tensors that were made are not made again. -/
theorem Strict.adds (hw : w.Strict) (h : w.Adds w' t t') : w'.Strict := by
  have hleft {u' : Tensor} (hu : w.tensors t u') : False := h.new.1 (hw.made _ _ hu).1
  have hright {u : Tensor} (hu : w.tensors u t') : False := h.new.2 (hw.made _ _ hu).2
  refine ⟨⟨fun u v' v hu hv => ?_, fun u v v' hv hv' => ?_⟩, fun u u' hu => ?_, fun u u' hu => ?_,
    fun u u' hu => ?_⟩
  · obtain hu | ⟨rfl, rfl⟩ := (h.tensors _ _).mp hu
    · obtain hv | ⟨rfl, rfl⟩ := (h.tensors _ _).mp hv
      · exact hw.biUnique.1 hu hv
      · exact (hright hu).elim
    · obtain hv | ⟨rfl, -⟩ := (h.tensors _ _).mp hv
      · exact (hright hv).elim
      · rfl
  · obtain hv | ⟨rfl, rfl⟩ := (h.tensors _ _).mp hv
    · obtain hv' | ⟨rfl, rfl⟩ := (h.tensors _ _).mp hv'
      · exact hw.biUnique.2 hv hv'
      · exact (hleft hv).elim
    · obtain hv' | ⟨-, rfl⟩ := (h.tensors _ _).mp hv'
      · exact (hleft hv').elim
      · rfl
  · obtain hu | ⟨rfl, rfl⟩ := (h.tensors _ _).mp hu
    · exact ⟨h.grows.left.made u (hw.made u u' hu).1, h.grows.right.made u' (hw.made u u' hu).2⟩
    · exact ⟨h.same.left, h.same.right⟩
  · obtain hu | ⟨rfl, rfl⟩ := (h.tensors _ _).mp hu
    · exact hw.name u u' hu
    · -- where any two tensors stand for each other, the new one would stand for itself already
      exact h.name.resolve_left fun hloose => hleft (hloose u u')
  · obtain hu | ⟨rfl, rfl⟩ := (h.tensors _ _).mp hu
    · exact (hw.inputs u u' hu).imp h.grows.tensors
    · exact h.inputs.imp h.grows.tensors

/-- To be strict is closed, since what is made on both sides corresponds one to one. -/
theorem closed_strict : Closed Strict :=
  ⟨fun _ _ h htensors hw => hw.grows h htensors, fun _ _ _ _ h hw => hw.adds h⟩

end Correspondence

/-! ### Machines and actions -/

namespace Action

variable {σ α : Type}

/-- An action that does another one, and otherwise only changes what belongs to the thread. -/
def RunsInScope (x' x : Action σ α) : Prop :=
  ∀ m, ∃ (t : Thread) (leave : Thread → Thread),
    x' m = ((x { m with thread := t }).1,
      { (x { m with thread := t }).2 with thread := leave (x { m with thread := t }).2.thread })

private theorem runsInScope_withTarget (target : Target) (x : Action σ α) :
    (withTarget target x).RunsInScope x :=
  fun m => ⟨m.thread.enter target, Thread.leave, rfl⟩

/-- Noting a task changes nothing but the trace sessions. -/
theorem noteTask_eq (task : Task) (m : Machine σ) :
    ∃ n, noteTask task m = (.ok (), n) ∧ n.own = m.own ∧ n.tuning.oracle = m.tuning.oracle ∧
      n.next = m.next := by
  unfold noteTask
  split
  · split
    · exact ⟨_, rfl, rfl, rfl, rfl⟩
    · exact ⟨_, rfl, rfl, rfl, rfl⟩
  · exact ⟨_, rfl, rfl, rfl, rfl⟩

end Action

/-- A relation of outcomes by which whatever is no value is related to itself. -/
structure Outcome.Lifts {α β : Type} (T : Outcome α → Outcome β → Prop) : Prop where
  fault : ∀ e, T (.fault e) (.fault e)
  panic : T .panic .panic
  stalled : T .stalled .stalled

/-- What two lowerings have in common and leave as it is. -/
structure Setting (σ : Type) where
  /-- What the collaborators keep. -/
  own : σ
  oracle : Oracle

namespace Setting

variable {σ α β γ δ : Type}

/-- The machines have the setting, and numbers are new on them from the registers on. -/
structure Holds (k : Setting σ) (w : Correspondence) (m m' : Machine σ) : Prop where
  own : m.own = k.own
  own' : m'.own = k.own
  oracle : m.tuning.oracle = k.oracle
  oracle' : m'.tuning.oracle = k.oracle
  next : m.next = w.left.next
  next' : m'.next = w.right.next

/-- What belongs to the threads is not looked at. -/
theorem Holds.withThread {k : Setting σ} {w : Correspondence} {m m' : Machine σ}
    (h : k.Holds w m m') (t t' : Thread) :
    k.Holds w { m with thread := t } { m' with thread := t' } :=
  ⟨h.own, h.own', h.oracle, h.oracle', h.next, h.next'⟩

/-- Two actions ended alike, and if they ended with values, these are related. -/
inductive Ends (k : Setting σ) (w : Correspondence) (P : Correspondence → α → β → Prop) :
    Outcome α × Machine σ → Outcome β × Machine σ → Prop where
  | ok {w' : Correspondence} {m m' : Machine σ} {a : α} {b : β} : w.Grows w' → k.Holds w' m m' →
      P w' a b → Ends k w P (.ok a, m) (.ok b, m')
  | fault (e : Fault) (m m' : Machine σ) : Ends k w P (.fault e, m) (.fault e, m')
  | panic (m m' : Machine σ) : Ends k w P (.panic, m) (.panic, m')
  | stalled (m m' : Machine σ) : Ends k w P (.stalled, m) (.stalled, m')

/-- From machines that the correspondence speaks of, the actions end alike. -/
def SideBySide (k : Setting σ) (w : Correspondence) (P : Correspondence → α → β → Prop)
    (x : Action σ α) (y : Action σ β) : Prop :=
  ∀ m m', k.Holds w m m' → k.Ends w P (x m) (y m')

/-- Side by side, and the correspondence stays one of those that are considered. -/
abbrev SideBySideIn (k : Setting σ) (D : Correspondence → Prop) (w : Correspondence)
    (P : Correspondence → α → β → Prop) (x : Action σ α) (y : Action σ β) : Prop :=
  k.SideBySide w (fun w' a b => D w' ∧ P w' a b) x y

variable {k : Setting σ} {w w' : Correspondence} {P : Correspondence → α → β → Prop}
  {Q : Correspondence → γ → δ → Prop}

/-- What ended alike after the correspondence had grown. -/
theorem Ends.before (h : w.Grows w') {r : Outcome α × Machine σ} {s : Outcome β × Machine σ}
    (hends : k.Ends w' P r s) : k.Ends w P r s := by
  cases hends with
  | ok hgrows hholds hp => exact Ends.ok (h.trans hgrows) hholds hp
  | fault e m m' => exact Ends.fault e m m'
  | panic m m' => exact Ends.panic m m'
  | stalled m m' => exact Ends.stalled m m'

/-- Two actions in a row on each side. The second ones begin where the first ones have ended. -/
theorem Ends.bind {x : Action σ α} {y : Action σ β} {f : α → Action σ γ} {g : β → Action σ δ}
    {m m' : Machine σ} (h : k.Ends w P (x m) (y m'))
    (hfg : ∀ w' a b n n', x m = (.ok a, n) → w.Grows w' → k.Holds w' n n' → P w' a b →
      k.Ends w' Q (f a n) (g b n')) :
    k.Ends w Q ((x >>= f) m) ((y >>= g) m') := by
  change k.Ends w Q (Action.bind x f m) (Action.bind y g m')
  unfold Action.bind
  rcases hx : x m with ⟨o, n⟩
  rw [hx] at h hfg
  generalize y m' = s at h
  cases h with
  | ok hgrows hholds hp => exact Ends.before hgrows (hfg _ _ _ _ _ rfl hgrows hholds hp)
  | fault e n n' => exact Ends.fault e n n'
  | panic n n' => exact Ends.panic n n'
  | stalled n n' => exact Ends.stalled n n'

/-- Outcomes of two actions in a row on each side are related, if those of the second ones are. -/
theorem Ends.outcomes {T : Outcome γ → Outcome δ → Prop} (hT : Outcome.Lifts T)
    {x : Action σ α} {y : Action σ β} {f : α → Action σ γ} {g : β → Action σ δ}
    {m m' : Machine σ} (h : k.Ends w P (x m) (y m'))
    (hfg : ∀ w' a b n n', x m = (.ok a, n) → w.Grows w' → k.Holds w' n n' → P w' a b →
      T (f a n).1 (g b n').1) :
    T ((x >>= f) m).1 ((y >>= g) m').1 := by
  change T (Action.bind x f m).1 (Action.bind y g m').1
  unfold Action.bind
  rcases hx : x m with ⟨o, n⟩
  rw [hx] at h hfg
  generalize y m' = s at h
  cases h with
  | ok hgrows hholds hp => exact hfg _ _ _ _ _ rfl hgrows hholds hp
  | fault e => exact hT.fault e
  | panic => exact hT.panic
  | stalled => exact hT.stalled

/-- What follows from the property holds at the end. -/
theorem Ends.imp {P' : Correspondence → α → β → Prop} {r : Outcome α × Machine σ}
    {s : Outcome β × Machine σ} (h : k.Ends w P r s)
    (hP : ∀ w' a b, w.Grows w' → P w' a b → P' w' a b) : k.Ends w P' r s := by
  cases h with
  | ok hgrows hholds hp => exact Ends.ok hgrows hholds (hP _ _ _ hgrows hp)
  | fault e n n' => exact Ends.fault e n n'
  | panic n n' => exact Ends.panic n n'
  | stalled n n' => exact Ends.stalled n n'

/-- What belongs to the threads may be changed in the end. -/
private theorem Ends.onThreads {r : Outcome α × Machine σ} {s : Outcome β × Machine σ}
    (h : k.Ends w P r s) (f g : Thread → Thread) :
    k.Ends w P (r.1, { r.2 with thread := f r.2.thread })
      (s.1, { s.2 with thread := g s.2.thread }) := by
  cases h with
  | ok hgrows hholds hp => exact Ends.ok hgrows (hholds.withThread _ _) hp
  | fault e n n' => exact Ends.fault e _ _
  | panic n n' => exact Ends.panic _ _
  | stalled n n' => exact Ends.stalled _ _

/-- Tracing may be suspended on one side only. -/
theorem Ends.suspendIf {x : Action σ α} {y : Action σ β} {m m' : Machine σ}
    (suspended suspended' : Bool)
    (h : ∀ t t', t = (if suspended then m.thread.suspend else m.thread) →
      k.Ends w P (x { m with thread := t }) (y { m' with thread := t' })) :
    k.Ends w P (Action.suspendIf suspended x m) (Action.suspendIf suspended' y m') := by
  have hends (t' : Thread) := h _ t' rfl
  cases suspended with
  | false =>
    cases suspended' with
    | false => exact hends m'.thread
    | true => exact (hends m'.thread.suspend).onThreads (fun t => t) Thread.resume
  | true =>
    cases suspended' with
    | false => exact (hends m'.thread).onThreads Thread.resume fun t => t
    | true => exact (hends m'.thread.suspend).onThreads Thread.resume Thread.resume

namespace SideBySide

/-- To return what is related is done side by side. -/
theorem pure {a : α} {b : β} (h : P w a b) :
    k.SideBySide w P (Pure.pure a : Action σ α) (Pure.pure b) :=
  fun _ _ hm => Ends.ok (Correspondence.Grows.refl w) hm h

/-- To fail with one fault is done side by side. -/
theorem fail (e : Fault) : k.SideBySide w P (Action.fail e : Action σ α) (Action.fail e) :=
  fun m m' _ => Ends.fault e m m'

/-- Two actions in a row on each side. -/
theorem bind {x : Action σ α} {y : Action σ β} {f : α → Action σ γ} {g : β → Action σ δ}
    (h : k.SideBySide w P x y)
    (hfg : ∀ w' a b, w.Grows w' → P w' a b → k.SideBySide w' Q (f a) (g b)) :
    k.SideBySide w Q (x >>= f) (y >>= g) :=
  fun m m' hm => (h m m' hm).bind fun w' a b n n' _ hw hn hp => hfg w' a b hw hp n n' hn

/-- What follows from the property holds of what is done side by side. -/
theorem imp {P' : Correspondence → α → β → Prop} {x : Action σ α} {y : Action σ β}
    (h : k.SideBySide w P x y) (hP : ∀ w' a b, w.Grows w' → P w' a b → P' w' a b) :
    k.SideBySide w P' x y :=
  fun m m' hm => (h m m' hm).imp hP

/-- A function is applied to the value on the left. -/
theorem map_left {Q : Correspondence → γ → β → Prop} {x : Action σ α} {y : Action σ β}
    (h : k.SideBySide w P x y) (f : α → γ)
    (hf : ∀ w' a b, w.Grows w' → P w' a b → Q w' (f a) b) :
    k.SideBySide w Q (x >>= fun a => Pure.pure (f a)) y := by
  have hbind : k.SideBySide w Q (x >>= fun a => Pure.pure (f a)) (y >>= Pure.pure) :=
    h.bind fun w' a b hw hp => pure (hf w' a b hw hp)
  rwa [bind_pure] at hbind

/-- To read what is related is done side by side. -/
theorem read {f : Machine σ → α} {g : Machine σ → β}
    (h : ∀ m m', k.Holds w m m' → P w (f m) (g m')) :
    k.SideBySide w P (Action.read f) (Action.read g) :=
  fun m m' hm => Ends.ok (Correspondence.Grows.refl w) hm (h m m' hm)

/-- Values that are missing together are told to be missing with one fault. -/
theorem ofOption (e : Fault) {o : Option α} {o' : Option β} (h : Option.Rel (P w) o o') :
    k.SideBySide w P (Action.ofOption e o : Action σ α) (Action.ofOption e o') := by
  cases h with
  | some hab => exact pure hab
  | none => exact fail e

/-- What is done to the threads before and after is not looked at. -/
private theorem inScope {x x' : Action σ α} {y y' : Action σ β} (hx : x'.RunsInScope x)
    (hy : y'.RunsInScope y) (h : k.SideBySide w P x y) : k.SideBySide w P x' y' := by
  intro m m' hm
  obtain ⟨t, leave, hx⟩ := hx m
  obtain ⟨t', leave', hy⟩ := hy m'
  rw [hx, hy]
  exact (h _ _ (hm.withThread t t')).onThreads leave leave'

/-- In scopes of their own, what is done side by side is done so. -/
theorem withTarget (target target' : Target) {x : Action σ α} {y : Action σ β}
    (h : k.SideBySide w P x y) :
    k.SideBySide w P (Action.withTarget target x) (Action.withTarget target' y) :=
  inScope (Action.runsInScope_withTarget target x) (Action.runsInScope_withTarget target' y) h

/-- Noting a task leaves the oracle as it is, and makes nothing. -/
theorem noteTask (task task' : Task) :
    k.SideBySide w (fun w' _ _ => w' = w) (Action.noteTask task : Action σ Unit)
      (Action.noteTask task') := by
  intro m m' hm
  obtain ⟨n, hx, hown, horacle, hnext⟩ := Action.noteTask_eq task m
  obtain ⟨n', hy, hown', horacle', hnext'⟩ := Action.noteTask_eq task' m'
  rw [hx, hy]
  refine Ends.ok (Correspondence.Grows.refl w) ⟨?_, ?_, ?_, ?_, ?_, ?_⟩ rfl
  · exact hown.trans hm.own
  · exact hown'.trans hm.own'
  · exact horacle.trans hm.oracle
  · exact horacle'.trans hm.oracle'
  · exact hnext.trans hm.next
  · exact hnext'.trans hm.next'

/-! ### New tensors -/

/-- A tensor that is made on each side out of tensors that look alike. -/
private theorem make {x : Action σ Tensor} {y : Action σ Tensor} {inputs inputs' : List Tensor}
    (hinputs : w.SameAll inputs inputs') (t t' : Nat → Tensor)
    (hx : ∀ m : Machine σ, x m = (.ok (t m.next), { m with next := m.next + 1 }))
    (hy : ∀ m : Machine σ, y m = (.ok (t' m.next), { m with next := m.next + 1 }))
    (hid : ∀ n, (t n).id = n ∧ (t' n).id = n)
    (hfrom : ∀ n, (t n).inputs = inputs ∧ (t' n).inputs = inputs')
    (hname : ∀ n n', w.Loose ∨ (t n).name = (t' n').name)
    (halike : Tensor.Alike w.numbers w.left.params w.right.params (t w.left.next)
      (t' w.right.next)) :
    k.SideBySide w w.Adds x y := by
  intro m m' hm
  obtain ⟨hmade, hmade'⟩ := Correspondence.made_of_same hinputs
  have hleft := w.left.grows_make (t w.left.next) (hid _).1 ((hfrom _).1.symm ▸ hmade)
  have hright := w.right.grows_make (t' w.right.next) (hid _).2 ((hfrom _).2.symm ▸ hmade')
  have hnew : ¬w.left.made (t w.left.next) := fun h =>
    absurd (w.left.id_lt _ h) ((hid _).1.symm ▸ Nat.lt_irrefl _)
  have hnew' : ¬w.right.made (t' w.right.next) := fun h =>
    absurd (w.right.id_lt _ h) ((hid _).2.symm ▸ Nat.lt_irrefl _)
  have hstand : List.Forall₂ w.tensors (t w.left.next).inputs (t' w.right.next).inputs := by
    rw [(hfrom _).1, (hfrom _).2]
    exact hinputs.imp fun _ _ hu => hu.related
  rw [hx, hy, hm.next, hm.next']
  refine Ends.ok (w.grows_adding hleft hright _ _) ?_ ⟨w.grows_adding hleft hright _ _, rfl,
    fun _ _ => Iff.rfl, ⟨hnew, hnew'⟩, ⟨Or.inr rfl, Or.inr rfl, Or.inr ⟨rfl, rfl⟩, halike⟩,
    hname _ _, hstand⟩
  exact ⟨hm.own, hm.own', hm.oracle, hm.oracle', rfl, rfl⟩

/-- A new placeholder on each side; they are those of no parameter. -/
theorem placeholder {name name' : String} (hname : w.Loose ∨ name = name')
    {shape shape' : List IndexExpr}
    (hshape : List.Forall₂ (IndexExpr.Alike w.numbers) shape shape') (dtype : DataType) :
    k.SideBySide w w.Adds (Action.placeholder name shape dtype)
      (Action.placeholder name' shape' dtype) := by
  have hnone : w.left.params.idxOf? w.left.next = w.right.params.idxOf? w.right.next :=
    w.left.idxOf?_next.trans w.right.idxOf?_next.symm
  exact make .nil (fun n => .placeholder n name shape dtype)
    (fun n => .placeholder n name' shape' dtype) (fun _ => rfl) (fun _ => rfl)
    (fun _ => ⟨rfl, rfl⟩) (fun _ => ⟨rfl, rfl⟩) (fun _ _ => hname) ⟨hnone, hshape, rfl⟩

/-- A new tensor on each side for one workload or none, computed in the same way from tensors that
look alike. -/
theorem computedFor (workload : Option Workload) {name name' : String}
    (hname : w.Loose ∨ name = name') {shape shape' : List IndexExpr}
    (hshape : List.Forall₂ (IndexExpr.Alike w.numbers) shape shape') (dtype : DataType)
    (tag : String) {inputs inputs' : List Tensor} (hinputs : w.SameAll inputs inputs') :
    k.SideBySide w w.Adds
      (do return .computed (← Action.freshNumber) name shape dtype tag inputs workload)
      (do return .computed (← Action.freshNumber) name' shape' dtype tag inputs' workload) := by
  have halike : Tensor.AlikeAll w.numbers w.left.params w.right.params inputs inputs' :=
    Tensor.alikeAll_iff.mpr (hinputs.imp fun _ _ hu => hu.alike)
  exact make hinputs (fun n => .computed n name shape dtype tag inputs workload)
    (fun n => .computed n name' shape' dtype tag inputs' workload) (fun _ => rfl) (fun _ => rfl)
    (fun _ => ⟨rfl, rfl⟩) (fun _ => ⟨rfl, rfl⟩) (fun _ _ => hname)
    ⟨hshape, rfl, rfl, rfl, halike⟩

/-- The same for tensors without a workload. -/
theorem computed {name name' : String} (hname : w.Loose ∨ name = name')
    {shape shape' : List IndexExpr}
    (hshape : List.Forall₂ (IndexExpr.Alike w.numbers) shape shape') (dtype : DataType)
    (tag : String) {inputs inputs' : List Tensor}
    (hinputs : w.SameAll inputs inputs') :
    k.SideBySide w w.Adds (Action.computed name shape dtype tag inputs)
      (Action.computed name' shape' dtype tag inputs') :=
  computedFor none hname hshape dtype tag hinputs

end SideBySide

end Setting

end TensorLowering

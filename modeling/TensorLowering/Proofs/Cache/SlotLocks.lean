import TensorLowering.Proofs.Cache.Traffic
import Mathlib.Data.Sum.Basic

/-!
# Who holds what while requests are served

A request holds its slot from the moment it is free until the request leaves it, and it writes into
the table where it makes a slot, takes one away or clears everything. For those who look at a cache
while requests are served, three things are said of every step of a request:

* it leaves the locks of the slots alone, or takes one that is free, or leaves the one it has
  (`System.Step.locking`), so that a lock is taken if and only if somebody has it, and one at a time
  (`Guarded.step`);
* it leaves the table alone unless it writes into it (`System.Step.mapped_eq`), and never takes away
  a slot that is filled except by clearing (`System.Step.slotOf?_eq`);
* a request that has found its slot empty holds an empty slot until it fills it
  (`System.Barren.step`). So whoever holds a slot that is filled is served from it or has just
  filled it (`System.Barren.serves_of_holds`).
-/

namespace TensorLowering

/-! ### Locks -/

section Locks

variable {H : Type} [DecidableEq H] {busy busy' : Nat → Bool} {holds holds' : H → Option Nat}

/-- A lock is taken if and only if somebody has it, and one at a time. -/
structure Guarded (busy : Nat → Bool) (holds : H → Option Nat) : Prop where
  busy_iff : ∀ n, busy n = true ↔ ∃ x, holds x = some n
  owner : ∀ x y n, holds x = some n → holds y = some n → x = y

/-- What a step does to locks and to those who have them. -/
inductive Locking (busy busy' : Nat → Bool) (holds holds' : H → Option Nat) : Prop where
  | keep : busy' = busy → holds' = holds → Locking busy busy' holds holds'
  | lock (x : H) (n : Nat) : holds x = none → busy n = false →
      busy' = Function.update busy n true → holds' = Function.update holds x (some n) →
      Locking busy busy' holds holds'
  | unlock (x : H) (n : Nat) : holds x = some n →
      busy' = Function.update busy n false → holds' = Function.update holds x none →
      Locking busy busy' holds holds'

private theorem Guarded.lock (h : Guarded busy holds) {x : H} {n : Nat} (hx : holds x = none)
    (hn : busy n = false) :
    Guarded (Function.update busy n true) (Function.update holds x (some n)) := by
  have hnobody (y : H) : holds y ≠ some n := fun hy => by
    have := (h.busy_iff n).mpr ⟨y, hy⟩
    rw [hn] at this
    cases this
  refine ⟨fun m => ?_, fun y z m hy hz => ?_⟩
  · by_cases hm : m = n
    · rw [hm, Function.update_self]
      exact iff_of_true rfl ⟨x, Function.update_self ..⟩
    · rw [Function.update_of_ne hm, h.busy_iff]
      refine exists_congr fun y => ?_
      rw [Function.update_apply]
      split
      · next hy => simp [hy, hx, Ne.symm hm]
      · rfl
  · rw [Function.update_apply] at hy hz
    split at hy <;> split at hz
    · next hyx hzx => rw [hyx, hzx]
    · exact absurd (Option.some.inj hy ▸ hz) (hnobody z)
    · exact absurd (Option.some.inj hz ▸ hy) (hnobody y)
    · exact h.owner y z m hy hz

private theorem Guarded.unlock (h : Guarded busy holds) {x : H} {n : Nat} (hx : holds x = some n) :
    Guarded (Function.update busy n false) (Function.update holds x none) := by
  refine ⟨fun m => ?_, fun y z m hy hz => ?_⟩
  · simp only [Function.update_apply]
    by_cases hm : m = n
    · -- nobody else has the lock
      subst hm
      rw [if_pos rfl]
      refine iff_of_false Bool.false_ne_true ?_
      rintro ⟨y, hy⟩
      split at hy
      · cases hy
      · next hne => exact hne (h.owner y x m hy hx)
    · rw [if_neg hm, h.busy_iff]
      refine exists_congr fun y => ?_
      split
      · next hy => simp [hy, hx, Ne.symm hm]
      · rfl
  · rw [Function.update_apply] at hy hz
    split at hy
    · cases hy
    · split at hz
      · cases hz
      · exact h.owner y z m hy hz

/-- A step of locking keeps the locks guarded. -/
theorem Guarded.step (h : Guarded busy holds) (hstep : Locking busy busy' holds holds') :
    Guarded busy' holds' := by
  cases hstep with
  | keep hbusy hholds => rwa [hbusy, hholds]
  | lock x n hx hn hbusy hholds =>
    rw [hbusy, hholds]
    exact h.lock hx hn
  | unlock x n hx hbusy hholds =>
    rw [hbusy, hholds]
    exact h.unlock hx

variable {K : Type} [DecidableEq K] (others : K → Option Nat)

/-- Others may have locks as well, and keep them. -/
theorem Locking.inl (h : Locking busy busy' holds holds') :
    Locking busy busy' (Sum.elim holds others) (Sum.elim holds' others) := by
  cases h with
  | keep hbusy hholds => exact .keep hbusy (by rw [hholds])
  | lock x n hx hn hbusy hholds =>
    exact .lock (.inl x) n hx hn hbusy (by rw [hholds, Sum.update_elim_inl])
  | unlock x n hx hbusy hholds =>
    exact .unlock (.inl x) n hx hbusy (by rw [hholds, Sum.update_elim_inl])

/-- Other holders of locks do not mind a step. -/
theorem Locking.inr (h : Locking busy busy' holds holds') :
    Locking busy busy' (Sum.elim others holds) (Sum.elim others holds') := by
  cases h with
  | keep hbusy hholds => exact .keep hbusy (by rw [hholds])
  | lock x n hx hn hbusy hholds =>
    exact .lock (.inr x) n hx hn hbusy (by rw [hholds, Sum.update_elim_inr])
  | unlock x n hx hbusy hholds =>
    exact .unlock (.inr x) n hx hbusy (by rw [hholds, Sum.update_elim_inr])

end Locks

/-- To lock or unlock a slot updates one lock. -/
theorem Cache.isBusy_setBusy_eq {c : Cache} {n : Nat} (hn : n < c.slots.size) (b : Bool) :
    (c.setBusy n b).isBusy = Function.update c.isBusy n b := by
  funext m
  rw [isBusy_setBusy hn, Function.update_apply]
  exact if_congr eq_comm rfl rfl

namespace Phase

/-- The phases from which a request goes on by writing into the table. -/
def writes : Phase → Prop
  | .missed | .failing .. => True
  | .idle | .looking | .waiting _ | .testing _ | .checking _ | .retrying _ | .lowering _
  | .filling .. | .leaving .. | .done .. => False

/-- The slot a request has found empty and holds, and has not filled. -/
def barren? : Phase → Option Nat
  | .checking n | .retrying n | .lowering n | .filling n _ | .failing n _ | .leaving n (.fault _)
  | .leaving n .panic | .leaving n .stalled => some n
  | .idle | .looking | .missed | .waiting _ | .testing _ | .leaving _ (.ok _) | .done .. => none

private theorem holds?_of_barren? {p : Phase} {n : Nat} (h : p.barren? = some n) :
    p.holds? = some n := by
  cases p with
  | leaving m o => cases o <;> first | exact h | cases h
  | idle | looking | missed | waiting | testing | done => cases h
  | checking | retrying | lowering | filling | failing => exact h

/-- A request that holds a slot has found it empty, or is served from it, or has filled it. -/
private theorem barren?_of_holds? {p : Phase} {n : Nat} (h : p.holds? = some n) :
    p.barren? = some n ∨ p = .testing n ∨ ∃ a, p = .leaving n (.ok a) := by
  cases p with
  | leaving m o =>
    obtain rfl := Option.some.inj h
    cases o with
    | ok a => exact Or.inr (Or.inr ⟨a, rfl⟩)
    | fault | panic | stalled => exact Or.inl rfl
  | testing m => exact Or.inr (Or.inl (congrArg _ (Option.some.inj h)))
  | idle | looking | missed | waiting | done => cases h
  | checking | retrying | lowering | filling | failing => exact Or.inl h

end Phase

namespace System

variable {key : Nat → CacheKey} {s s' : System} {r n : Nat} {l : Label}

/-! ### The locks of the slots -/

/-- The slot a request holds. -/
def holds (s : System) (r : Nat) : Option Nat := (s.flight r).phase.holds?

private theorem holds_put (s : System) (r : Nat) (x : Flight) :
    (s.put r x).holds = Function.update s.holds r x.phase.holds? := by
  funext r'
  rw [holds, Sound.flight_put, Function.update_apply]
  split <;> rfl

/-- A request goes on and holds what it held. -/
private theorem holds_put_eq {p : Phase} {x : Flight} (hr : (s.flight r).phase = p)
    (hx : x.phase.holds? = p.holds?) : (s.put r x).holds = s.holds := by
  rw [holds_put, hx, ← hr]
  exact Function.update_eq_self _ _

/-- **Every step leaves the locks alone, or takes a free one, or leaves one.** -/
theorem Step.locking (h : System.Step key s s') (hs : Sound key s) :
    Locking s.cache.isBusy s'.cache.isBusy s.holds s'.holds := by
  cases h with
  | begin r hr => exact .keep rfl (holds_put_eq hr rfl)
  | clear => exact .keep rfl rfl
  | find r n hr => exact .keep rfl (holds_put_eq hr rfl)
  | miss r hr => exact .keep rfl (holds_put_eq hr rfl)
  | create r n c hr hslot =>
    refine .keep (funext fun m => ?_) (holds_put_eq hr rfl)
    have hbusy := Cache.isBusy_slotFor s.cache (key r) m
    rwa [hslot] at hbusy
  | lock r n hr hn =>
    have hmade := (hs.slot r n (by rw [hr]; rfl)).1
    exact .lock r n (by rw [holds, hr]; rfl) hn (Cache.isBusy_setBusy_eq hmade true)
      (holds_put _ _ _)
  | hit r n e hr =>
    exact .keep (funext fun m => Cache.isBusy_modifyEntry _ _ _ _) (holds_put_eq hr rfl)
  | empty r n hr => exact .keep rfl (holds_put_eq hr rfl)
  | current r n hr => exact .keep rfl (holds_put_eq hr rfl)
  | detached r n hr => exact .keep rfl (holds_put_eq hr rfl)
  | retry r n hr =>
    have hmade := (hs.slot r n (by rw [hr]; rfl)).1
    exact .unlock r n (by rw [holds, hr]; rfl) (Cache.isBusy_setBusy_eq hmade false)
      (holds_put _ _ _)
  | succeed r n a hr => exact .keep rfl (holds_put_eq hr rfl)
  | fail r n e hr => exact .keep rfl (holds_put_eq hr rfl)
  | panic r n hr => exact .keep rfl (holds_put_eq hr rfl)
  | fill r n a hr =>
    exact .keep (funext fun m => Cache.isBusy_fill _ _ _ _) (holds_put_eq hr rfl)
  | remove r n e hr =>
    exact .keep (funext fun m => Cache.isBusy_detach _ _ _ _) (holds_put_eq hr rfl)
  | unlock r n o hr =>
    have hmade := (hs.slot r n (by rw [hr]; rfl)).1
    exact .unlock r n (by rw [holds, hr]; rfl) (Cache.isBusy_setBusy_eq hmade false)
      (holds_put _ _ _)

/-! ### The table -/

/-- What needs the lock of the table for itself: to clear everything, to make a slot, to take one
away. -/
def Rewrites (s s' : System) : Prop :=
  s'.clears ≠ s.clears ∨
    ∃ r, (s.flight r).phase.writes ∧ (s'.flight r).phase ≠ (s.flight r).phase

/-- **A step that does not write into the table leaves it alone.** -/
theorem Step.mapped_eq (h : System.Step key s s') (hr : ¬s.Rewrites s') :
    s'.cache.mapped = s.cache.mapped := by
  cases h with
  | clear => exact absurd (Or.inl (Nat.succ_ne_self _)) hr
  | create r n c hphase =>
    refine absurd (Or.inr ⟨r, by rw [hphase]; trivial, fun heq => ?_⟩) hr
    change ((s.put r _).flight r).phase = _ at heq
    rw [Sound.flight_put, if_pos rfl, hphase] at heq
    cases heq
  | remove r n e hphase =>
    refine absurd (Or.inr ⟨r, by rw [hphase]; trivial, fun heq => ?_⟩) hr
    change ((s.put r _).flight r).phase = _ at heq
    rw [Sound.flight_put, if_pos rfl, hphase] at heq
    cases heq
  | begin | find | miss | lock | hit | empty | current | detached | retry | succeed | fail | panic
  | fill | unlock => rfl

/-- The number of clears never goes down. -/
theorem Step.clears_le (h : System.Step key s s') : s.clears ≤ s'.clears := by
  cases h with
  | clear => exact Nat.le_succ _
  | begin | find | miss | create | lock | hit | empty | current | detached | retry | succeed | fail
  | panic | fill | remove | unlock => exact Nat.le_refl _

/-- **A slot that is filled stays the one of its label until everything is cleared.** -/
theorem Step.slotOf?_eq (h : System.Step key s s') (hs : Sound key s)
    (hclears : s'.clears = s.clears) (hn : s.cache.slotOf? l = some n)
    (hfilled : s.cache.content? n ≠ none) : s'.cache.slotOf? l = some n := by
  cases h with
  | clear => exact absurd hclears (Nat.succ_ne_self _)
  | create r m c hr hslot =>
    have hsame := Cache.slotOf?_slotFor s.cache (key r) l
    rw [hslot] at hsame
    change c.slotOf? l = _
    rw [hsame]
    split
    · next hl =>
      rw [Cache.slotFor_of_some (hl ▸ hn)] at hslot
      rw [(Prod.mk.inj hslot).1]
    · exact hn
  | remove r m e hr =>
    change (s.cache.detach (key r) m).slotOf? l = _
    rw [Cache.slotOf?_detach]
    split
    · next hboth =>
      -- what is taken away is empty
      obtain ⟨rfl, hm⟩ := hboth
      obtain rfl := Option.some.inj (hm.symm.trans hn)
      exact absurd (hs.blank r m (by rw [hr]; rfl)) hfilled
    · exact hn
  | begin | find | miss | lock | hit | empty | current | detached | retry | succeed | fail | panic
  | fill | unlock => exact hn

/-! ### Slots that are held and stay empty -/

/-- A slot that a request has found empty, holds and has not filled is empty. -/
def Barren (s : System) : Prop :=
  ∀ r n, (s.flight r).phase.barren? = some n → s.cache.content? n = none

namespace Barren

/-- At the start no request holds a slot. -/
theorem start : Barren .start := fun _ _ h => by cases h

/-- A request goes on, and nothing is put into a slot. -/
private theorem put (h : s.Barren) {x : Flight} {c : Cache} {origin : Nat → Label × Nat}
    (hcontent : ∀ n, s.cache.content? n = none → c.content? n = none)
    (hx : ∀ n, x.phase.barren? = some n →
      (s.flight r).phase.barren? = some n ∨ s.cache.content? n = none) :
    Barren { s.put r x with cache := c, origin } := by
  intro r' n hn
  change ((s.put r x).flight r').phase.barren? = some n at hn
  rw [Sound.flight_put] at hn
  refine hcontent n ?_
  split at hn
  · exact (hx n hn).elim (h r n) id
  · exact h r' n hn

/-- **One step.** -/
theorem step (h : s.Barren) (hs : Sound key s) (hstep : System.Step key s s') : s'.Barren := by
  cases hstep with
  | begin r hr => exact h.put (fun _ => id) fun _ hn => by cases hn
  | clear => exact h
  | find r n hr => exact h.put (fun _ => id) fun _ hn => by cases hn
  | miss r hr => exact h.put (fun _ => id) fun _ hn => by cases hn
  | create r n c hr hslot =>
    refine h.put (fun m hm => ?_) fun _ hn => by cases hn
    have hcontent := Cache.content?_slotFor s.cache (key r) m
    rw [hslot] at hcontent
    exact hcontent.trans hm
  | lock r n hr =>
    exact h.put (fun m hm => (Cache.content?_setBusy _ _ _ _).trans hm) fun _ hn => by cases hn
  | hit r n e hr =>
    refine h.put (fun m hm => ?_) fun _ hn => by cases hn
    rw [Cache.countUse, Cache.content?_modifyEntry, hm]
    exact ite_self _
  | empty r n hr hn =>
    refine h.put (fun _ => id) fun m hm => Or.inr ?_
    obtain rfl := Option.some.inj hm
    exact hn
  | current r n hr => exact h.put (fun _ => id) fun m hm => Or.inl (by rw [hr]; exact hm)
  | detached r n hr => exact h.put (fun _ => id) fun m hm => Or.inl (by rw [hr]; exact hm)
  | retry r n hr =>
    exact h.put (fun m hm => (Cache.content?_setBusy _ _ _ _).trans hm) fun _ hn => by cases hn
  | succeed r n a hr => exact h.put (fun _ => id) fun m hm => Or.inl (by rw [hr]; exact hm)
  | fail r n e hr => exact h.put (fun _ => id) fun m hm => Or.inl (by rw [hr]; exact hm)
  | panic r n hr => exact h.put (fun _ => id) fun m hm => Or.inl (by rw [hr]; exact hm)
  | fill r n a hr =>
    -- nobody else holds the slot that is filled
    intro r' m hm
    change ((s.put r _).flight r').phase.barren? = some m at hm
    rw [Sound.flight_put] at hm
    split at hm
    · cases hm
    · next hne =>
      change (s.cache.fill n a).content? m = none
      rw [Cache.content?_fill (hs.slot r n (by rw [hr]; rfl)).1, if_neg]
      · exact h r' m hm
      · rintro rfl
        exact hne (hs.owner r' r n (Phase.holds?_of_barren? hm) (by rw [hr]; rfl))
  | remove r n e hr =>
    exact h.put (fun m hm => (Cache.content?_detach _ _ _ _).trans hm) fun m hm =>
      Or.inl (by rw [hr]; exact hm)
  | unlock r n o hr =>
    exact h.put (fun m hm => (Cache.content?_setBusy _ _ _ _).trans hm) fun _ hn => by cases hn

/-- **Whoever holds a slot that is filled is served from it or has just filled it.** -/
theorem serves_of_holds (h : s.Barren) (hr : s.holds r = some n)
    (hfilled : s.cache.content? n ≠ none) :
    (s.flight r).phase = .testing n ∨ ∃ a, (s.flight r).phase = .leaving n (.ok a) :=
  (Phase.barren?_of_holds? hr).resolve_left fun hbarren => hfilled (h r n hbarren)

end Barren

end System

end TensorLowering

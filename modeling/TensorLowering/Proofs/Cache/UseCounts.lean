import TensorLowering.Proofs.Cache.Traffic
import Mathlib.Data.Finset.Card

/-!
# Uses are counted

An entry is counted as used once more for every request that is served from it. The request that
has lowered it is not counted, and so the requests that have obtained the value of a slot are one
more than its uses. `Counted` says so of one cache, at any time, together with what makes it last: a
request that has lowered a function for a slot stays with this slot until it returns, and so whoever
is served from a slot that is filled is not the one who has lowered it.

In every run of requests on both caches, all that was ever put into a slot is counted in this way,
whether or not the slot was taken away from its key meanwhile (`Traffic.Run.uses_exact`).
-/

namespace TensorLowering

/-! ### Counting the requests that were served -/

/-- How the entries of a cache stand to the requests on it, where it is known which requests have
lowered a function for which slots. -/
structure Counted (s : System) (lowered : Nat → Nat → Prop) : Prop where
  begun : ∀ r n, (s.flight r).phase.lowers? = some n → lowered r n
  /-- Whoever has lowered a function for a slot stays with this slot. -/
  tended : ∀ r n, lowered r n → (s.flight r).phase.tended? = some n
  filled : ∀ r n, (s.flight r).phase.obtained? = some n → s.cache.tally n ≠ none
  /-- The requests that have obtained the value of a slot are one more than its uses. -/
  uses : ∀ n a uses, s.cache.tally n = some (a, uses) → ∃ rs : Finset Nat,
    (∀ r, r ∈ rs ↔ (s.flight r).phase.obtained? = some n) ∧ rs.card = uses + 1
  /-- One of them has lowered it. -/
  author : ∀ n, s.cache.tally n ≠ none →
    ∃! r, (s.flight r).phase.obtained? = some n ∧ lowered r n

namespace Counted

variable {s s' : System} {lowered : Nat → Nat → Prop} {n : Nat}

/-- At the start no uses were counted and nothing was obtained. -/
theorem start : Counted .start fun _ _ => False := by
  refine ⟨?_, ?_, ?_, ?_, ?_⟩
  · exact fun _ _ h => nomatch h
  · exact fun _ _ h => h.elim
  · exact fun _ _ h => nomatch h
  · exact fun _ _ _ h => nomatch h
  · exact fun _ h => absurd rfl h

/-- Requests that lower have not yet obtained anything. -/
private theorem author_of (h : ∃! r, (s.flight r).phase.obtained? = some n ∧ lowered r n) :
    ∃! r, (s.flight r).phase.obtained? = some n ∧
      (lowered r n ∨ (s.flight r).phase.lowers? = some n) := by
  refine (existsUnique_congr fun r => and_congr_right fun hr => ?_).mp h
  refine (or_iff_left fun hlowers => ?_).symm
  rw [Phase.obtained?_of_lowers? hlowers] at hr
  cases hr

/-- A request obtains the value of a slot, whose entry is counted anew. -/
theorem obtain (h : Counted s lowered) {r uses : Nat} {a : Artifact} {x : Flight}
    (hr : (s.flight r).phase.obtained? = none)
    (hrn : ∀ k, (s.flight r).phase.tended? = some k → k = n) (hx : x.phase = .leaving n (.ok a))
    (hflight : s'.flight = Function.update s.flight r x)
    (htally : s'.cache.tally = Function.update s.cache.tally n (some (a, uses)))
    (huses : ∃ rs : Finset Nat,
      (∀ r', r' ∈ rs ↔ r' = r ∨ (s.flight r').phase.obtained? = some n) ∧ rs.card = uses + 1)
    (hauthor : ∃! r', (r' = r ∨ (s.flight r').phase.obtained? = some n) ∧ lowered r' n) :
    Counted s' fun r n => lowered r n ∨ (s'.flight r).phase.lowers? = some n := by
  -- besides the others there is now this request that has obtained the value of the slot
  have hobtained (r' k : Nat) : (s'.flight r').phase.obtained? = some k ↔
      r' = r ∧ k = n ∨ (s.flight r').phase.obtained? = some k := by
    rw [hflight, Function.update_apply]
    split
    · next heq => rw [heq, hr, hx]; simp [Phase.obtained?, Phase.returns?, eq_comm]
    · next hne => simp [hne]
  have hother {r' k : Nat} (hk : k ≠ n) : (s'.flight r').phase.obtained? = some k ↔
      (s.flight r').phase.obtained? = some k := by
    rw [hobtained]
    exact or_iff_right fun hboth => hk hboth.2
  have hthis (r' : Nat) : (s'.flight r').phase.obtained? = some n ↔
      r' = r ∨ (s.flight r').phase.obtained? = some n := by
    rw [hobtained]
    simp
  refine ⟨fun _ _ hr => Or.inr hr, fun r' k hr' => ?_, fun r' k hr' => ?_,
    fun k b u hk => ?_, fun k hk => author_of ?_⟩
  · obtain hr' | hr' := hr'
    · have htended := h.tended r' k hr'
      rw [hflight, Function.update_apply]
      split
      · next heq => rw [hx, hrn k (heq ▸ htended)]; rfl
      · exact htended
    · exact Phase.tended?_of_lowers? hr'
  · rw [htally, Function.update_apply]
    split
    · exact Option.some_ne_none _
    · next hk => exact h.filled r' k ((hother hk).mp hr')
  · rw [htally, Function.update_apply] at hk
    split at hk
    · next heq =>
      obtain ⟨-, rfl⟩ := Prod.mk.inj (Option.some.inj hk)
      simp only [heq, hthis]
      exact huses
    · next hne =>
      simp only [hother hne]
      exact h.uses k b u hk
  · rw [htally, Function.update_apply] at hk
    split at hk
    · next heq =>
      simp only [heq, hthis]
      exact hauthor
    · next hne =>
      simp only [hother hne]
      exact h.author k hk

/-- **One step.** -/
theorem effect (h : Counted s lowered) (heffect : s.Effect s') :
    Counted s' fun r n => lowered r n ∨ (s'.flight r).phase.lowers? = some n := by
  cases heffect with
  | move r x hflight hobtained htended htally =>
    have hsame (r' : Nat) : (s'.flight r').phase.obtained? = (s.flight r').phase.obtained? := by
      rw [hflight, Function.update_apply]
      split
      · next hr => rw [hobtained, hr]
      · rfl
    refine ⟨fun _ _ hr => Or.inr hr, fun r' n hr => ?_, fun r' n hr => ?_, fun n a uses hn => ?_,
      fun n hn => author_of ?_⟩
    · obtain hr | hr := hr
      · have := h.tended r' n hr
        rw [hflight, Function.update_apply]
        split
        · next heq => subst heq; exact htended n this
        · exact this
      · exact Phase.tended?_of_lowers? hr
    · rw [htally]
      exact h.filled r' n (hsame r' ▸ hr)
    · simp only [hsame]
      exact h.uses n a uses (htally ▸ hn)
    · simp only [hsame]
      exact h.author n (htally ▸ hn)
  | serve r n a uses hr hn hflight htally =>
    have hobtained : (s.flight r).phase.obtained? = none := by rw [hr]; rfl
    have htended (k : Nat) : (s.flight r).phase.tended? ≠ some k := by
      rw [hr]
      exact fun h => nomatch h
    obtain ⟨rs, hrs, hcard⟩ := h.uses n a uses hn
    have hnew : r ∉ rs := by
      rw [hrs, hobtained]
      exact fun h => nomatch h
    -- one more has obtained the value, and it is not the one who has lowered it
    refine h.obtain hobtained (fun k hk => absurd hk (htended k)) rfl hflight htally
      ⟨insert r rs, fun r' => ?_, ?_⟩ ?_
    · rw [Finset.mem_insert, hrs]
    · rw [Finset.card_insert_of_notMem hnew, hcard]
    · refine (existsUnique_congr fun r' => and_congr_left fun hr' => ?_).mp
        (h.author n (by rw [hn]; exact Option.some_ne_none _))
      refine (or_iff_right fun heq => ?_).symm
      exact htended n (heq ▸ h.tended r' n hr')
  | fill r n a hr hn hflight htally =>
    -- nobody has obtained anything from an empty slot, so this request is the first
    have hnone (r' : Nat) : (s.flight r').phase.obtained? ≠ some n :=
      fun hr' => h.filled r' n hr' hn
    refine h.obtain (by rw [hr]; rfl) (fun k hk => ?_) rfl hflight htally
      ⟨{r}, fun r' => ?_, rfl⟩ ⟨r, ⟨Or.inl rfl, h.begun r n (by rw [hr]; rfl)⟩, fun r' hr' => ?_⟩
    · rw [hr] at hk
      exact (Option.some.inj hk).symm
    · rw [Finset.mem_singleton]
      exact (or_iff_left (hnone r')).symm
    · exact hr'.1.resolve_right (hnone r')

end Counted

namespace Traffic

/-- At one of these times, a request has lowered a function for a slot. -/
def Lowered (times : List Traffic) (aspect : Aspect) (r n : Nat) : Prop :=
  ∃ t ∈ times, ((t.side aspect).flight r).phase.lowers? = some n

/-- No request is being served from a cache. -/
def Quiet (t : Traffic) : Prop :=
  ∀ aspect r, ((t.side aspect).flight r).phase = .idle ∨
    ∃ n o, ((t.side aspect).flight r).phase = .done n o

variable {key : Aspect → Nat → CacheKey} {jits : Nat → Bool} {t u : Traffic} {past : List Traffic}

/-- The entries of both caches are counted throughout a run. -/
private theorem Run.counted (h : Run key jits t past) (aspect : Aspect) :
    Counted (t.side aspect) (Lowered (t :: past) aspect) := by
  induction h with
  | start =>
    have hnone : Lowered [Traffic.start] aspect = fun _ _ => False := by
      funext r n
      simp [Lowered, Traffic.start, System.start, Phase.lowers?]
    rw [hnone]
    exact Counted.start
  | @step t t' past hrun hstep ih =>
    have hlowered : Lowered (t' :: t :: past) aspect = fun r n =>
        Lowered (t :: past) aspect r n ∨ ((t'.side aspect).flight r).phase.lowers? = some n := by
      funext r n
      simp only [Lowered, List.exists_mem_cons_iff (a := t')]
      exact propext or_comm
    rw [hlowered]
    exact ih.effect (hstep.side_sound hrun.sound aspect).2

/-- When nothing is being served, who has obtained the value of a slot has returned it. -/
private theorem Quiet.obtained?_iff (hquiet : t.Quiet) {aspect : Aspect} {r n : Nat} {a : Artifact}
    (hreturns : ∀ b, ((t.side aspect).flight r).phase.returns? = some (n, b) → b = a) :
    ((t.side aspect).flight r).phase.obtained? = some n ↔
      ((t.side aspect).flight r).phase = .done n (.ok a) := by
  constructor
  · intro h
    obtain ⟨⟨_, b⟩, hreturned, rfl⟩ := Option.map_eq_some_iff.mp h
    obtain rfl := hreturns b hreturned
    obtain hidle | ⟨m, o, hdone⟩ := hquiet aspect r
    · rw [hidle] at hreturned
      cases hreturned
    · rw [hdone] at hreturned ⊢
      cases o with
      | ok c =>
        obtain ⟨rfl, rfl⟩ := Prod.mk.inj (Option.some.inj hreturned)
        rfl
      | fault | panic | stalled => cases hreturned
  · intro h
    rw [h]
    rfl

/-- **No use is lost.** In every run of requests on both caches, some of them for entry points, and
of clearings: if no request is being served, then every value that was ever put into a slot, taken
away or not, is still there, the requests that have obtained it are one more than its uses, and one
of them has lowered it. -/
theorem Run.uses_exact (h : Run key jits t past) (hquiet : t.Quiet) (hu : u ∈ t :: past)
    {aspect : Aspect} {n : Nat} {e : Entry} (he : (u.side aspect).cache.content? n = some e) :
    ∃ (e' : Entry) (rs : Finset Nat),
      (t.side aspect).cache.content? n = some e' ∧ e'.artifact = e.artifact ∧
      (∀ r, r ∈ rs ↔ ((t.side aspect).flight r).phase = .done n (.ok e.artifact)) ∧
      rs.card = e'.uses + 1 ∧ ∃! r, r ∈ rs ∧ Lowered (t :: past) aspect r n := by
  have hcounted := h.counted aspect
  have htally : (u.side aspect).cache.tally n = some (e.artifact, e.uses) := by
    rw [Cache.tally, he]
    rfl
  obtain ⟨uses, hkept⟩ := h.keeps hu htally
  obtain ⟨e', he', hentry⟩ := Option.map_eq_some_iff.mp hkept
  obtain ⟨hartifact, rfl⟩ := Prod.mk.inj hentry
  have hdone (r : Nat) : ((t.side aspect).flight r).phase.obtained? = some n ↔
      ((t.side aspect).flight r).phase = .done n (.ok e.artifact) := by
    refine hquiet.obtained?_iff fun b hb => ?_
    have hvalue := (h.sound aspect).returns r n b hb
    rw [he'] at hvalue
    exact (Option.some.inj hvalue).symm.trans hartifact
  obtain ⟨rs, hrs, hcard⟩ := hcounted.uses n _ _ hkept
  refine ⟨e', rs, he', hartifact, fun r => (hrs r).trans (hdone r), hcard, ?_⟩
  simp only [hrs]
  exact hcounted.author n (by rw [hkept]; exact Option.some_ne_none _)

/-- The caches are cleared while a request for an entry point lowers its function and another one
waits for it. -/
private theorem exists_run_detached :
    ∃ (key : Aspect → Nat → CacheKey) (jits : Nat → Bool) (t : Traffic) (past : List Traffic),
      Run key jits t past ∧ t.Quiet ∧
      (t.side .values).cache = ⟨[], #[⟨false, some ⟨default, 1, some default⟩⟩]⟩ := by
  let key : Aspect → Nat → CacheKey := fun _ _ => default
  let jits : Nat → Bool := fun r => r == 0
  -- one request has found the slot that the other one has made, and this one lowers the function
  obtain ⟨t, past, hrun, hcache, h0, h1, hidle, hmaking⟩ : ∃ t past, Run key jits t past ∧
      (t.side .values).cache = ⟨[(default, 0)], #[⟨true, none⟩]⟩ ∧
      ((t.side .values).flight 0).phase = .lowering 0 ∧
      ((t.side .values).flight 1).phase = .waiting 0 ∧
      (∀ aspect r, aspect = .values ∧ r < 2 ∨ ((t.side aspect).flight r).phase = .idle) ∧
      ∀ r, t.making r = .idle := by
    have h₀ : Run key jits start [] := .start
    have h₁ := (h₀.step (.side _ .values _ (.begin _ 0 rfl))).step
      (.side _ .values _ (.begin _ 1 rfl))
    have h₂ := (h₁.step (.side _ .values _ (.miss _ 0 rfl rfl))).step
      (.side _ .values _ (.create _ 0 0 _ rfl rfl))
    have h₃ := (h₂.step (.side _ .values _ (.find _ 1 0 rfl rfl))).step
      (.side _ .values _ (.lock _ 0 0 rfl rfl))
    have h₄ := (h₃.step (.side _ .values _ (.empty _ 0 0 rfl rfl))).step
      (.side _ .values _ (.current _ 0 0 rfl rfl))
    refine ⟨_, _, h₄, rfl, rfl, rfl, ?_, fun _ => rfl⟩
    rintro (_ | _) (_ | _ | r)
    · exact Or.inl ⟨rfl, Nat.zero_lt_two⟩
    · exact Or.inl ⟨rfl, Nat.one_lt_two⟩
    all_goals exact Or.inr rfl
  have hfree :
      (((t.side .values).cache.clear.fill 0 default).setBusy 0 false).isBusy 0 = false := by
    rw [hcache]
    rfl
  have hfilled : ((((t.side .values).cache.clear.fill 0 default).setBusy 0 false).setBusy 0
      true).content? 0 = some ⟨default, 0, none⟩ := by
    rw [hcache]
    rfl
  have hserved : ((((((t.side .values).cache.clear.fill 0 default).setBusy 0 false).setBusy 0
      true).countUse 0).setBusy 0 false) = ⟨[], #[⟨false, some ⟨default, 1, none⟩⟩]⟩ := by
    rw [hcache]
    rfl
  have h₅ := (hrun.step (.side _ .values _ (.clear _))).step (.side _ .shapes _ (.clear _))
  have h₆ := (h₅.step (.side _ .values _ (.succeed _ 0 0 default h0))).step
    (.side _ .values _ (.fill _ 0 0 default rfl))
  have h₇ := (h₆.step (.side _ .values _ (.unlock _ 0 0 _ rfl))).step
    (.side _ .values _ (.lock _ 1 0 h1 hfree))
  have h₈ := (h₇.step (.side _ .values _ (.hit _ 1 0 _ rfl hfilled))).step
    (.side _ .values _ (.unlock _ 1 0 _ rfl))
  -- the first one goes on to the entry point
  have hunheld (r : Nat) : (t.making r).holds? ≠ some 0 := by
    rw [hmaking]
    exact fun h => nomatch h
  have hmade := congrArg (fun c => c.content? 0) hserved
  have h₉ := (h₈.step (.lock _ 0 0 default rfl rfl (hmaking 0) hunheld)).step
    (.build _ 0 0 ⟨default, 1, none⟩ rfl hmade rfl)
  have h₁₀ := ((h₉.step (.succeed _ 0 0 default rfl)).step (.keep _ 0 0 default rfl)).step
    (.unlock _ 0 0 _ rfl)
  have hcache' := congrArg (fun c => c.storeEntryPoint 0 default) hserved
  refine ⟨key, jits, _, _, h₁₀, ?_, hcache'⟩
  rintro (_ | _) r
  · rcases r with _ | _ | r
    · exact Or.inr ⟨0, _, rfl⟩
    · exact Or.inr ⟨0, _, rfl⟩
    · exact Or.inl ((hidle .values (r + 2)).resolve_left fun h => by omega)
  · exact Or.inl ((hidle .shapes r).resolve_left fun h => nomatch h.1)

theorem uses_exact_detached : ∃ (key : Aspect → Nat → CacheKey) (jits : Nat → Bool) (t : Traffic)
    (past : List Traffic), Run key jits t past ∧ t.Quiet ∧
      (t.side .values).cache = ⟨[], #[⟨false, some ⟨default, 1, some default⟩⟩]⟩ ∧
      ∃ rs : Finset Nat,
        (∀ r, r ∈ rs ↔ ((t.side .values).flight r).phase = .done 0 (.ok default)) ∧
        rs.card = 2 ∧ ∃! r, r ∈ rs ∧ Lowered (t :: past) .values r 0 := by
  obtain ⟨key, jits, t, past, hrun, hquiet, hcache⟩ := exists_run_detached
  have hcontent : (t.side .values).cache.content? 0 = some ⟨default, 1, some default⟩ := by
    rw [hcache]
    rfl
  obtain ⟨e', rs, he', -, hrs, hcard, hauthor⟩ :=
    hrun.uses_exact hquiet List.mem_cons_self hcontent
  obtain rfl := Option.some.inj (hcontent.symm.trans he')
  exact ⟨key, jits, t, past, hrun, hquiet, hcache, rs, hrs, hcard, hauthor⟩

end Traffic

end TensorLowering

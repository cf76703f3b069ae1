import TensorLowering.Proofs.Lowering.EndToEnd
import TensorLowering.Proofs.Lowering.Uniform

/-!
# Lowering functions with one fingerprint

Functions with one fingerprint are lowered alike. Their encodings visit nodes of equal numbers at
the same time, and so do the walks that lower them, which stay abreast (`Abreast`). Only in the
number of times that a variable or a constant is lowered may they differ, since the sharing of
such nodes is not shown by the fingerprint.

It is asked of the calls that the first lowering begins that the guards which are offered for them
are steady, and so the walk has to say where each call is begun (`Abreast.ends_visit`).
-/

namespace TensorLowering

open Encoding Setting

variable {σ : Type}

/-! ### Single visits -/

namespace Tracks

variable {d : Subject} {a : Aspect} {r : Register} {path : List Nat} {s : Encoding} {p : Progress}
  {id : Nat} {x : Var}

/-- A variable has the tensors that it is bound to, whether its node was met before or not. -/
private theorem visit_var (h : Tracks d a r path s p) (hp : d.Place path (.var id x))
    {ts : List Tensor} (hx : p.bound.lookup x.id = some ts) (v : Walk σ) :
    ∃ p', p.MayKeep id ts p' ∧ v.visit p (.var id x) = pure (ts, p') := by
  cases hmemo : p.memo.lookup (Expr.var id x).id with
  | none =>
    refine ⟨p.remember id ts, Or.inr rfl, ?_⟩
    rw [Walk.visit, hmemo]
    dsimp only
    rw [hx]
  | some us =>
    have hkept := h.kept _ us hmemo
    rw [hp.node] at hkept
    cases hkept with
    | var id hus =>
      obtain rfl := Option.some.inj (hus.symm.trans hx)
      exact ⟨p, Or.inl rfl, v.visit_of_lookup hmemo⟩
    | inner us he => exact he.elim

private theorem visit_free (h : Tracks d a r path s p) (hp : d.Place path (.var id x))
    (hx : p.bound.lookup x.id = none) (v : Walk σ) :
    v.visit p (.var id x) = Action.fail (.unsupported (.freeVariable x.name)) := by
  cases hmemo : p.memo.lookup (Expr.var id x).id with
  | none =>
    rw [Walk.visit, hmemo]
    dsimp only
    rw [hx]
  | some us =>
    have hkept := h.kept _ us hmemo
    rw [hp.node] at hkept
    cases hkept with
    | var id hus => exact absurd (hus.symm.trans hx) (Option.some_ne_none us)
    | inner us he => exact he.elim

/-- A constant has a tensor that was made for it, if its type has one at all. -/
private theorem visit_const {v : Walk σ} {t : TensorType} {data : List UInt8}
    (h : Tracks d v.aspect r path s p) (hp : d.Place path (.const id t data))
    (ht : t.hasUnknown = false) {m : Machine σ} (hm : m.next = r.next) :
    (∃ e, constantFault v.aspect t e ∧ v.visit p (.const id t data) m = (.fault e, m)) ∨
      ∃ u r' p', r.Grows r' ∧ r'.IsConstant v.aspect t u ∧ p.MayKeep id [u] p' ∧
        v.visit p (.const id t data) m = (.ok ([u], p'), { m with next := r'.next }) := by
  cases hmemo : p.memo.lookup (Expr.const id t data).id with
  | none =>
    have hvisit : v.visit p (.const id t data) = (do
        let u ← constantTensor v.aspect t
        return ([u], p.remember id [u])) := by
      rw [Walk.visit, hmemo]
    rw [hvisit]
    change (∃ e, _ ∧ Action.bind _ _ m = _) ∨ ∃ u r' p', _ ∧ _ ∧ _ ∧ Action.bind _ _ m = _
    unfold Action.bind
    obtain ⟨e, he, hrun⟩ | ⟨u, r', hr, hu, hrun⟩ := constantTensor_cases ht v.aspect hm
    · rw [hrun]
      exact Or.inl ⟨e, he, rfl⟩
    · rw [hrun]
      exact Or.inr ⟨u, r', _, hr, hu, Or.inr rfl, rfl⟩
  | some us =>
    have hkept := h.kept _ us hmemo
    rw [hp.node] at hkept
    cases hkept with
    | @const _ _ _ u hu =>
      refine Or.inr ⟨u, r, p, .refl r, hu, Or.inl rfl, ?_⟩
      rw [v.visit_of_lookup hmemo, ← hm]
      rfl
    | inner us he => exact he.elim

end Tracks

/-! ### Parts of visits, side by side -/

/-- What two visits end with. -/
structure Visited (z : Twins) (a : Aspect) (path path' : List Nat) (s t : Encoding)
    (w : Correspondence) (r r' : List Tensor × Progress) : Prop where
  same : w.SameAll r.1 r'.1
  abreast : Abreast z a w path path' s t r.2 r'.2

namespace Abreast

variable {a : Aspect} {v : Walk σ} {k : Setting σ} {z : Twins} {w w₁ : Correspondence}
  {path path' : List Nat}
  {s t s₁ t₁ : Encoding} {p q p₁ q₁ : Progress} {e e' : Expr} {ts ts' : List Tensor} {id : Nat}

/-- A node that was visited before is met again. -/
private theorem sideBySide_again (hab : Abreast z v.aspect w path path' s t p q)
    (hp : z.left.Place path e) (hp' : z.right.Place path' e') (he : e.Inner) {n : Nat}
    (hn : s.visited.lookup e.id = some n) (h : s.tokens e = t.tokens e') :
    k.SideBySide w (fun w r r' => e.type = e'.type ∧
        Visited z v.aspect path path' (s.encode e) (t.encode e') w r r')
      (v.visit p e) (v.visit q e') := by
  rw [tokens_of_visited he hn] at h
  obtain ⟨he', hn'⟩ := tokens_eq_shared h
  obtain ⟨ts, hts⟩ := hab.left.exists_lookup hp (hn ▸ Option.some_ne_none n)
  obtain ⟨ts', hts'⟩ := hab.right.exists_lookup hp' (hn' ▸ Option.some_ne_none n)
  have hrel := hab.paired.nodes _ _ n hn hn'
  rw [hts, hts', hp.node, hp'.node] at hrel
  cases hrel with
  | some hrel =>
    rw [encode_of_visited he hn, encode_of_visited he' hn', v.visit_of_lookup hts,
      v.visit_of_lookup hts']
    exact .pure ⟨hrel.1, hrel.2, hab.emit _ _⟩

private theorem sideBySide_var {x : Var} (hab : Abreast z v.aspect w path path' s t p q)
    (hp : z.left.Place path (.var id x)) (hp' : z.right.Place path' e')
    (h : s.tokens (.var id x) = t.tokens e') :
    k.SideBySide w (fun w r r' => (Expr.var id x).type = e'.type ∧
        Visited z v.aspect path path' (s.encode (.var id x)) (t.encode e') w r r')
      (v.visit p (.var id x)) (v.visit q e') := by
  obtain ⟨id', y, rfl, hxy⟩ := tokens_eq_occurrence h
  obtain ⟨hlookup, hfree⟩ := lookup_eq_of_occurrence hxy
  have hx : z.var x.id = x := z.agree x (Or.inl (.occurrence hp.within))
  have hy : z.var y.id = y := z.agree y (Or.inr (.occurrence hp'.within))
  cases hs : s.bound.lookup x.id with
  | none =>
    have hs' : t.bound.lookup y.id = none := hlookup ▸ hs
    obtain rfl : x = y := by rw [← hx, ← hy, hfree hs]
    rw [hab.left.visit_free hp ((hab.left.bound x.id).mp hs),
      hab.right.visit_free hp' ((hab.right.bound x.id).mp hs')]
    exact .fail _
  | some n =>
    have hs' : t.bound.lookup y.id = some n := hlookup ▸ hs
    have hne : p.bound.lookup x.id ≠ none := fun hnone =>
      absurd ((hab.left.bound x.id).mpr hnone) (hs ▸ Option.some_ne_none n)
    have hne' : q.bound.lookup y.id ≠ none := fun hnone =>
      absurd ((hab.right.bound y.id).mpr hnone) (hs' ▸ Option.some_ne_none n)
    obtain ⟨ts, hts⟩ := Option.ne_none_iff_exists'.mp hne
    obtain ⟨ts', hts'⟩ := Option.ne_none_iff_exists'.mp hne'
    obtain ⟨htype, hsame⟩ := hab.paired.vars x.id y.id n ts ts' hs hs' hts hts'
    rw [hx, hy] at htype
    obtain ⟨p', hmay, hrun⟩ := hab.left.visit_var hp hts v
    obtain ⟨q', hmay', hrun'⟩ := hab.right.visit_var hp' hts' v
    rw [hrun, hrun']
    refine .pure ⟨htype, hsame, ?_⟩
    exact (hab.mayKeep hp hp' (fun he => he.elim) (fun he => he.elim) (.var id hts) (.var id' hts')
      hmay hmay').emit _ _

private theorem sideBySide_const {type : TensorType} {data : List UInt8}
    (hab : Abreast z v.aspect w path path' s t p q)
    (hp : z.left.Place path (.const id type data)) (hp' : z.right.Place path' e')
    (h : s.tokens (.const id type data) = t.tokens e') :
    k.SideBySide w (fun w r r' => (Expr.const id type data).type = e'.type ∧
        Visited z v.aspect path path' (s.encode (.const id type data)) (t.encode e') w r r')
      (v.visit p (.const id type data)) (v.visit q e') := by
  obtain ⟨id', rfl⟩ := tokens_eq_const h
  have hknown := z.known id type data hp.within
  have hbelow := z.below.constants id type data hp.within
  intro m m' hm
  have hleft := hab.left.visit_const hp hknown hm.next
  have hright := hab.right.visit_const hp' hknown hm.next'
  obtain ⟨f, hf, hrun⟩ | ⟨u, r, p', hr, hu, hmay, hrun⟩ := hleft
  · obtain ⟨f', hf', hrun'⟩ | ⟨u', r', q', hr', hu', hmay', hrun'⟩ := hright
    · obtain rfl : f = f' := Except.error.inj (hf.2.symm.trans hf'.2)
      rw [hrun, hrun']
      exact Ends.fault f m m'
    · exact absurd hf hu'.form.no_fault
  · obtain ⟨f', hf', hrun'⟩ | ⟨u', r', q', hr', hu', hmay', hrun'⟩ := hright
    · exact absurd hf' hu.form.no_fault
    · rw [hrun, hrun']
      have hgrows := w.grows_onto hr hr'
      have hab' := hab.mono hgrows
      have hsame : (w.onto hr hr').Same u u' := ConstantForm.same hab'.loose hab'.old hbelow hu hu'
      refine Ends.ok hgrows ⟨hm.own, hm.own', hm.oracle, hm.oracle', rfl, rfl⟩ ⟨rfl, ?_, ?_⟩
      · exact List.Forall₂.cons hsame List.Forall₂.nil
      · exact (hab'.mayKeep hp hp' (fun he => he.elim) (fun he => he.elim) (.const id data hu)
          (.const id' data hu') hmay hmay').emit _ _

/-- Both walks leave the nodes that they entered, when they are done with what is below. -/
private theorem sideBySide_leave (hab : Abreast z a w path path' s t p q) (hp : z.left.Place path e)
    (hp' : z.right.Place path' e') (he : e.Inner) (he' : e'.Inner) {c c' : Token}
    (hs : Keeps (s.enter e.id c).visited s₁.visited)
    (ht : Keeps (t.enter e'.id c').visited t₁.visited)
    (hab₁ : Abreast z a w₁ (e.id :: path) (e'.id :: path') s₁ t₁ p₁ q₁) (htype : e.type = e'.type)
    (hts : w₁.SameAll ts ts') :
    k.SideBySide w₁ (fun w r r' => e.type = e'.type ∧ Visited z a path path' s₁ t₁ w r r')
      (pure (ts, p₁.remember e.id ts)) (pure (ts', q₁.remember e'.id ts')) := by
  have hn : s₁.visited.lookup e.id = some s.visited.length := hs _ _ (lookup_visit_self s e.id)
  have hn' : t₁.visited.lookup e'.id = some s.visited.length := by
    rw [hab.paired.visited]
    exact ht _ _ (lookup_visit_self t e'.id)
  exact .pure ⟨htype, hts, hab₁.leave hp hp' he he' hn hn' htype hts⟩

/-- A call that is begun is finished alike on tensors that look alike, if the guards that are
offered are steady. -/
private theorem ends_finishCall (hv : v.collaborators.Uniform k) {c : Begun σ}
    (hsteady : v.Steady c) (hab : Abreast z a w path path' s t p q) {call' : Call}
    (hcall : c.node.call.Alike call')
    (htype : Ty.Alike w.numbers c.node.call.type c.node.call.type)
    (hts : w.SameAll c.inputs ts') {n' : Machine σ} (hn : k.Holds w c.machine n') :
    k.Ends w (Visited z a path path' s t) (v.finishCall p c.node.call c.inputs c.machine)
      (v.finishCall q call' ts' n') := by
  have hops : c.node.call.op :: p.ops = call'.op :: q.ops := by rw [hcall.op, hab.paired.ops]
  cases haspect : v.aspect with
  | values =>
    have hlower := v.ends_lowerCall_of_steady Correspondence.closed_loose hab.loose hv haspect
      hsteady hcall htype hts hn
    simp only [Walk.finishCall, haspect]
    refine hlower.bind fun w₁ l l' n₁ n₁' _ hw₁ hn₁ hl => ?_
    have hab₁ := hab.mono hw₁
    refine .ok (.refl w₁) hn₁ ⟨hl.2.outputs, ?_⟩
    exact hab₁.withLog (List.Forall₂.cons hl.2 hab₁.paired.calls) hops
  | shapes =>
    have hshapes := SideBySide.callShapeFunction_in hv hab.loose hcall hts
    simp only [Walk.finishCall, haspect]
    refine (hshapes c.machine n' hn).bind fun w₁ us us' n₁ n₁' _ hw₁ hn₁ hus => ?_
    have hab₁ := hab.mono hw₁
    exact .ok (.refl w₁) hn₁ ⟨hus.2, hab₁.withLog hab₁.paired.calls hops⟩

mutual

/-- **Walks over nodes with one text stay abreast**, if the guards that are offered for the calls
that are begun are steady. -/
theorem ends_visit (hv : v.collaborators.Uniform k) : (e : Expr) →
    ∀ {w : Correspondence} {path path' : List Nat} {s t : Encoding} {p q : Progress} {e' : Expr}
      {n n' : Machine σ}, Abreast z v.aspect w path path' s t p q →
    z.left.Place path e → z.right.Place path' e' → s.tokens e = t.tokens e' → k.Holds w n n' →
    (∀ c, Visit.Begins v ⟨p, n, e⟩ c → v.Steady c) →
    k.Ends w (fun w r r' => e.type = e'.type ∧
        Visited z v.aspect path path' (s.encode e) (t.encode e') w r r')
      (v.visit p e n) (v.visit q e' n')
  | .var id x, w, path, path', s, t, p, q, e', n, n', hab, hp, hp', h, hn, _ =>
    hab.sideBySide_var hp hp' h n n' hn
  | .const id type data, w, path, path', s, t, p, q, e', n, n', hab, hp, hp', h, hn, _ =>
    hab.sideBySide_const hp hp' h n n' hn
  | .call id op attrs args type, w, path, path', s, t, p, q, e', n, n', hab, hp, hp', h, hn,
      hcalls => by
    cases hid : s.visited.lookup id with
    | some i => exact hab.sideBySide_again hp hp' trivial hid h n n' hn
    | none =>
      obtain ⟨id', args', rfl, hid', hlen, h⟩ := tokens_eq_call hid h
      have hmemo := hab.left.lookup_eq_none hp trivial hid
      have hmemo' := hab.right.lookup_eq_none hp' trivial hid'
      have henter := hab.enter hp hp' trivial trivial hid hid' (.call op attrs args.length type)
        (.call op attrs args'.length type)
      let c : CallNode := ⟨id, ⟨op, attrs, args, type⟩⟩
      have hbegins := Walk.begins_iff_call (w := v) (n := n) (c := c) hmemo
      rw [encode_call hid, encode_call hid']
      unfold Walk.visit
      rw [hmemo, hmemo']
      refine (ends_visitAll hv args henter hp.call hp'.call hlen h hn
        fun d hd => hcalls d ((hbegins d).mp (Or.inl hd))).bind ?_
      rintro w₁ ⟨ts, p₁⟩ ⟨ts', q₁⟩ n₁ n₁' hrun hw₁ hn₁ ⟨htypes, hts, hab₁⟩
      have hbegun := hcalls ⟨c, ts, n₁⟩ ((hbegins _).mp (Or.inr ⟨ts, p₁, n₁, hrun, rfl⟩))
      have hcall : Call.Alike ⟨op, attrs, args, type⟩ ⟨op, attrs, args', type⟩ :=
        ⟨rfl, rfl, rfl, htypes⟩
      have hbelow := z.below.calls id op attrs args type hp.within
      have htype : Ty.Alike w₁.numbers type type := Ty.Below.alike hab₁.old type hbelow
      refine (ends_finishCall hv hbegun hab₁ hcall htype hts hn₁).bind ?_
      rintro w₂ ⟨us, p₂⟩ ⟨us', q₂⟩ n₂ n₂' - hw₂ hn₂ ⟨hus, hab₂⟩
      exact hab.sideBySide_leave hp hp' trivial trivial (keeps_visited_encodeAll _ args)
        (keeps_visited_encodeAll _ args') hab₂ rfl hus n₂ n₂' hn₂
  | .tuple id fields, w, path, path', s, t, p, q, e', n, n', hab, hp, hp', h, hn, hcalls => by
    cases hid : s.visited.lookup id with
    | some i => exact hab.sideBySide_again hp hp' trivial hid h n n' hn
    | none =>
      obtain ⟨id', fields', rfl, hid', hlen, h⟩ := tokens_eq_tuple hid h
      have hmemo := hab.left.lookup_eq_none hp trivial hid
      have hmemo' := hab.right.lookup_eq_none hp' trivial hid'
      have henter := hab.enter hp hp' trivial trivial hid hid' (.tuple fields.length)
        (.tuple fields'.length)
      rw [encode_tuple hid, encode_tuple hid']
      unfold Walk.visit
      rw [hmemo, hmemo']
      refine (ends_visitAll hv fields henter hp.tuple hp'.tuple hlen h hn
        fun d hd => hcalls d ((Walk.begins_iff_parts hmemo rfl nofun nofun d).mp hd)).bind ?_
      rintro w₁ ⟨ts, p₁⟩ ⟨ts', q₁⟩ n₁ n₁' - hw₁ hn₁ ⟨htypes, hts, hab₁⟩
      have htype : (Expr.tuple id fields).type = (Expr.tuple id' fields').type := by
        rw [Expr.type_tuple, Expr.type_tuple, htypes]
      exact hab.sideBySide_leave hp hp' trivial trivial (keeps_visited_encodeAll _ fields)
        (keeps_visited_encodeAll _ fields') hab₁ htype hts n₁ n₁' hn₁
  | .proj id e i, w, path, path', s, t, p, q, e', n, n', hab, hp, hp', h, hn, hcalls => by
    cases hid : s.visited.lookup id with
    | some j => exact hab.sideBySide_again hp hp' trivial hid h n n' hn
    | none =>
      obtain ⟨id', d, rfl, hid', h⟩ := tokens_eq_proj hid h
      have hmemo := hab.left.lookup_eq_none hp trivial hid
      have hmemo' := hab.right.lookup_eq_none hp' trivial hid'
      have henter := hab.enter hp hp' trivial trivial hid hid' (.proj i) (.proj i)
      have hpart (c : Begun σ) (hc : Visit.Begins v ⟨p, n, e⟩ c) : v.Steady c := by
        have hamong : Visit.BeginsAmong v p [e] n c := Visit.beginsAmong_singleton_iff.mpr hc
        exact hcalls c ((Walk.begins_iff_parts hmemo rfl nofun nofun c).mp hamong)
      rw [encode_proj hid, encode_proj hid']
      unfold Walk.visit
      rw [hmemo, hmemo']
      refine (ends_visit hv e henter hp.proj hp'.proj h hn hpart).bind ?_
      rintro w₁ ⟨ts, p₁⟩ ⟨ts', q₁⟩ n₁ n₁' - hw₁ hn₁ ⟨htype, hts, hab₁⟩
      dsimp only
      rw [← htype]
      obtain ⟨why, hwhy, hwhy'⟩ | ⟨us, us', hok, hok', hus⟩ := projectTensors_alike hts e.type i
      · rw [hwhy, hwhy']
        exact .fault _ n₁ n₁'
      · rw [hok, hok']
        have hfield : (Expr.proj id e i).type = (Expr.proj id' d i).type := by
          rw [Expr.type_proj, Expr.type_proj, htype]
        exact hab.sideBySide_leave hp hp' trivial trivial (keeps_visited_encode _ e)
          (keeps_visited_encode _ d) hab₁ hfield hus n₁ n₁' hn₁
  | .letIn id x value body, w, path, path', s, t, p, q, e', n, n', hab, hp, hp', h, hn,
      hcalls => by
    cases hid : s.visited.lookup id with
    | some i => exact hab.sideBySide_again hp hp' trivial hid h n n' hn
    | none =>
      obtain ⟨id', y, value', body', rfl, hid', htype, hvalue, hbody⟩ := tokens_eq_letIn hid h
      have hmemo := hab.left.lookup_eq_none hp trivial hid
      have hmemo' := hab.right.lookup_eq_none hp' trivial hid'
      have henter := hab.enter hp hp' trivial trivial hid hid' (.letIn x.type) (.letIn y.type)
      obtain ⟨hx, hbound⟩ := extends_letIn z.left.distinct hab.left.fits hp.lets hid
      obtain ⟨hy, hbound'⟩ := extends_letIn z.right.distinct hab.right.fits hp'.lets hid'
      have hxy : (z.var x.id).type = (z.var y.id).type := by
        rw [z.agree x (Or.inl (.letIn hp.within)), z.agree y (Or.inr (.letIn hp'.within)), htype]
      have hbegins (d : Begun σ) : (Visit.Begins v ⟨p, n, value⟩ d ∨ _) ↔
          Visit.Begins v ⟨p, n, .letIn id x value body⟩ d := Walk.begins_iff_letIn hmemo d
      rw [encode_letIn hid, encode_letIn hid']
      unfold Walk.visit
      rw [hmemo, hmemo']
      refine (ends_visit hv value henter hp.value hp'.value hvalue hn
        fun d hd => hcalls d ((hbegins d).mp (Or.inl hd))).bind ?_
      rintro w₁ ⟨ts, p₁⟩ ⟨ts', q₁⟩ n₁ n₁' hrun hw₁ hn₁ ⟨-, hts, hab₁⟩
      have hbind := hab₁.bind hx hy hbound.fits hbound'.fits hxy hts
      refine (ends_visit hv body hbind hp.body hp'.body hbody hn₁
        fun d hd => hcalls d ((hbegins d).mp (Or.inr ⟨ts, p₁, n₁, hrun, hd⟩))).bind ?_
      rintro w₂ ⟨us, p₂⟩ ⟨us', q₂⟩ n₂ n₂' - hw₂ hn₂ ⟨htype, hus, hab₂⟩
      exact hab.sideBySide_leave hp hp' trivial trivial
        ((keeps_visited_encode _ value).trans (keeps_visited_encode (Encoding.bind _ x.id) body))
        ((keeps_visited_encode _ value').trans (keeps_visited_encode (Encoding.bind _ y.id) body'))
        hab₂ htype hus n₂ n₂' hn₂

/-- The same for lists of nodes of one length. -/
theorem ends_visitAll (hv : v.collaborators.Uniform k) : (es : List Expr) →
    ∀ {w : Correspondence} {path path' : List Nat} {s t : Encoding} {p q : Progress}
      {es' : List Expr} {n n' : Machine σ}, Abreast z v.aspect w path path' s t p q →
    (∀ e ∈ es, z.left.Place path e) → (∀ e ∈ es', z.right.Place path' e) →
    es.length = es'.length → s.tokensAll es = t.tokensAll es' → k.Holds w n n' →
    (∀ c, Visit.BeginsAmong v p es n c → v.Steady c) →
    k.Ends w (fun w r r' => es.map Expr.type = es'.map Expr.type ∧
        Visited z v.aspect path path' (s.encodeAll es) (t.encodeAll es') w r r')
      (v.visitAll p es n) (v.visitAll q es' n')
  | [], w, path, path', s, t, p, q, es', n, n', hab, hp, hp', hlen, h, hn, _ => by
    obtain rfl := List.length_eq_zero_iff.mp hlen.symm
    exact .ok (.refl w) hn ⟨rfl, List.Forall₂.nil, hab⟩
  | e :: es, w, path, path', s, t, p, q, [], n, n', hab, hp, hp', hlen, h, hn, _ => nomatch hlen
  | e :: es, w, path, path', s, t, p, q, e' :: es', n, n', hab, hp, hp', hlen, h, hn, hcalls => by
    rw [List.forall_mem_cons] at hp hp'
    obtain ⟨hhead, htail⟩ := tokensAll_cons_inj h
    unfold Walk.visitAll
    refine (ends_visit hv e hab hp.1 hp'.1 hhead hn
      fun d hd => hcalls d (Visit.beginsAmong_cons_iff.mpr (Or.inl hd))).bind ?_
    rintro w₁ ⟨ts, p₁⟩ ⟨ts', q₁⟩ n₁ n₁' hrun hw₁ hn₁ ⟨htype, hts, hab₁⟩
    refine (ends_visitAll hv es hab₁ hp.2 hp'.2 (Nat.succ.inj hlen) htail hn₁ fun d hd =>
      hcalls d (Visit.beginsAmong_cons_iff.mpr (Or.inr ⟨ts, p₁, n₁, hrun, hd⟩))).bind ?_
    rintro w₂ ⟨us, p₂⟩ ⟨us', q₂⟩ n₂ n₂' - hw₂ hn₂ ⟨htypes, hus, hab₂⟩
    refine .ok (.refl w₂) hn₂ ⟨?_, List.rel_append (hw₂.sameAll hts) hus, hab₂⟩
    rw [List.map_cons, List.map_cons, htype, htypes]

end

end Abreast

end TensorLowering

import TensorLowering.Proofs.Fingerprint.Soundness
import TensorLowering.Proofs.Graph.Within

/-!
# One fingerprint whatever the variables are called

The converse of `Function.AlphaEquiv.of_fingerprint`: tidy functions that are equal up to the names
of variables have one fingerprint (`Function.AlphaEquiv.fingerprint_eq`). So calling the bound
variables of a tidy function by other variables does not change its fingerprint, whatever becomes
of the leaves (`Function.fingerprint_invariant`).

The two encoders run alongside each other (`Alongside`): they have written the same tokens, and in
their tables corresponding nodes stand under one number, and so do variables bound by
corresponding binders (`Function.Counterparts`). An occurrence is then written alike by both,
because it refers to corresponding binders, or it is free in both functions.

The other variables must not be free in the function. A local definition keeps its number behind
its end, so the free variable at the end of `(let z = c in z, z)` is written as if the definition
bound it, unlike the one of `(let a = c in a, z)` (`exists_reused`).
-/

namespace TensorLowering

open Encoding

/-! ### Corresponding binders -/

/-- The variables are bound by corresponding binders: by parameters at one place, or by local
definitions that correspond. -/
inductive Function.Counterparts (nodes : Nat → Nat → Prop) (f g : Function) : Nat → Nat → Prop where
  | param {k x y : Nat} : f.paramIds[k]? = some x → g.paramIds[k]? = some y →
      Counterparts nodes f g x y
  | letIn {i j x y : Nat} : nodes i j → (i, x) ∈ f.body.lets → (j, y) ∈ g.body.lets →
      Counterparts nodes f g x y

namespace Function.Counterparts

variable {nodes : Nat → Nat → Prop} {f g : Function}

/-- Counterparts are so both ways. -/
theorem symm {x y : Nat} (h : Counterparts nodes f g x y) :
    Counterparts (flip nodes) g f y x := by
  cases h with
  | param hx hy => exact .param hy hx
  | letIn hij hx hy => exact .letIn hij hy hx

/-- A variable has one counterpart, since its binder is the only one. -/
private theorem rightUnique (hf : f.Distinct) (hg : g.Coherent)
    (hnodes : Relator.RightUnique nodes) : Relator.RightUnique (Counterparts nodes f g) := by
  obtain ⟨c, hc⟩ := hg
  intro x y z hy hz
  cases hy with
  | @param k _ _ hx hy =>
    cases hz with
    | @param l _ _ hx' hz =>
      obtain ⟨hk, -⟩ := List.getElem?_eq_some_iff.mp hx
      have hkl : k = l := (List.getElem?_inj hk hf.params).mp (hx.trans hx'.symm)
      rw [hkl, hz] at hy
      exact (Option.some.inj hy).symm
    | letIn _ hx' _ => exact absurd (List.mem_of_getElem? hx) (hf.params_lets _ _ hx')
  | letIn hij hx hy =>
    cases hz with
    | param hx' _ => exact absurd (List.mem_of_getElem? hx') (hf.params_lets _ _ hx)
    | letIn hij' hx' hz =>
      obtain rfl := hf.lets _ _ _ hx hx'
      obtain rfl := hnodes hij hij'
      exact hc.lets_inj hy hz

private theorem biUnique (hf : f.Distinct) (hg : g.Distinct) (hfc : f.Coherent) (hgc : g.Coherent)
    (hnodes : Relator.BiUnique nodes) : Relator.BiUnique (Counterparts nodes f g) := by
  constructor
  · intro x y z hx hy
    have hflip : Relator.RightUnique (flip nodes) := fun _ _ _ hi hj => hnodes.1 hi hj
    exact rightUnique hg hfc hflip hx.symm hy.symm
  · exact rightUnique hf hgc hnodes.2

/-- Parameters have their counterparts in the order of the scopes. -/
private theorem scope (h : f.params.length = g.params.length) :
    List.Forall₂ (Counterparts nodes f g) f.scope g.scope := by
  have hlen : f.paramIds.length = g.paramIds.length := by
    simpa [paramIds] using h
  rw [Function.scope, Function.scope, List.forall₂_reverse_iff, List.forall₂_iff_get]
  refine ⟨hlen, fun k hk hk' => ?_⟩
  exact .param (List.getElem?_eq_getElem hk) (List.getElem?_eq_getElem hk')

end Function.Counterparts

/-- Functions with distinct binders, whose nodes and variables correspond one to one. -/
structure Function.Matched (nodes : Nat → Nat → Prop) (f g : Function) : Prop where
  left : f.Distinct
  right : g.Distinct
  inner : Relator.BiUnique nodes
  binders : Relator.BiUnique (f.Counterparts nodes g)

/-- Below binders that correspond one by one, binders at one distance correspond. -/
private theorem forall₂_of_idxOf? {P : Nat → Nat → Prop} {xs ys : List Nat}
    (h : List.Forall₂ P xs ys) {x y : Nat} (hx : x ∈ xs) (hxy : xs.idxOf? x = ys.idxOf? y) :
    P x y := by
  induction h with
  | nil => exact absurd hx List.not_mem_nil
  | @cons a b xs ys hab _ ih =>
    rw [List.idxOf?_cons, List.idxOf?_cons] at hxy
    by_cases hax : a = x
    · by_cases hby : b = y
      · rwa [← hax, ← hby]
      · cases hidx : ys.idxOf? y <;> simp [hax, hby, hidx] at hxy
    · by_cases hby : b = y
      · cases hidx : xs.idxOf? x <;> simp [hax, hby, hidx] at hxy
      · refine ih (List.mem_of_ne_of_mem (Ne.symm hax) hx) ?_
        simp only [beq_iff_eq, hax, hby, if_false] at hxy
        exact Option.map_injective (fun _ _ h => Nat.succ.inj h) hxy

/-! ### Corresponding expressions -/

section

variable {nodes : Nat → Nat → Prop} {f g : Function} {xs ys : List Nat} {e e' : Expr}

/-- The second expression, below the binders `ys`, is the first one, below the binders `xs`, with
other variables: they are alike, and occurrences at equal paths refer to one binder. -/
structure Renamed (nodes : Nat → Nat → Prop) (f g : Function) (xs ys : List Nat) (e e' : Expr) :
    Prop where
  alike : e.Alike nodes e'
  refers : ∀ path zs x zs' y, e.Occurs xs path zs x → e'.Occurs ys path zs' y → SameRef zs zs' x y
  scopes : List.Forall₂ (f.Counterparts nodes g) xs ys

namespace Renamed

private theorem all {es es' : List Expr} (halike : Expr.AlikeAll nodes es es')
    (hrefers : ∀ (k : Nat) d d' path zs x zs' y, es[k]? = some d → es'[k]? = some d' →
      d.Occurs xs path zs x → d'.Occurs ys path zs' y → SameRef zs zs' x y)
    (hscopes : List.Forall₂ (f.Counterparts nodes g) xs ys) :
    List.Forall₂ (Renamed nodes f g xs ys) es es' := by
  induction es generalizing es' with
  | nil =>
    cases es' with
    | nil => exact .nil
    | cons => exact halike.elim
  | cons e es ih =>
    cases es' with
    | nil => exact halike.elim
    | cons e' es' =>
      refine .cons ⟨halike.1, ?_, hscopes⟩ (ih halike.2 ?_)
      · intro path zs x zs' y
        exact hrefers 0 e e' path zs x zs' y rfl rfl
      · intro k d d' path zs x zs' y hd hd'
        exact hrefers (k + 1) d d' path zs x zs' y hd hd'

variable {id : Nat}

private theorem call {op : String} {attrs : Attrs} {args : List Expr} {t : Ty}
    (h : Renamed nodes f g xs ys (.call id op attrs args t) e') :
    ∃ j args', e' = .call j op attrs args' t ∧ nodes id j ∧
      List.Forall₂ (Renamed nodes f g xs ys) args args' := by
  obtain ⟨j, args', rfl, hnode, hargs⟩ := Expr.alike_call h.alike
  refine ⟨j, args', rfl, hnode, all hargs ?_ h.scopes⟩
  intro k d d' path zs x zs' y hd hd' hx hy
  exact h.refers (k :: path) zs x zs' y (.call id op attrs t hd hx) (.call j op attrs t hd' hy)

private theorem tuple {fields : List Expr} (h : Renamed nodes f g xs ys (.tuple id fields) e') :
    ∃ j fields', e' = .tuple j fields' ∧ nodes id j ∧
      List.Forall₂ (Renamed nodes f g xs ys) fields fields' := by
  obtain ⟨j, fields', rfl, hnode, hfields⟩ := Expr.alike_tuple h.alike
  refine ⟨j, fields', rfl, hnode, all hfields ?_ h.scopes⟩
  intro k d d' path zs x zs' y hd hd' hx hy
  exact h.refers (k :: path) zs x zs' y (.tuple id hd hx) (.tuple j hd' hy)

private theorem proj {i : Nat} (h : Renamed nodes f g xs ys (.proj id e i) e') :
    ∃ j d, e' = .proj j d i ∧ nodes id j ∧ Renamed nodes f g xs ys e d := by
  obtain ⟨j, d, rfl, hnode, hd⟩ := Expr.alike_proj h.alike
  refine ⟨j, d, rfl, hnode, hd, ?_, h.scopes⟩
  intro path zs x zs' y hx hy
  exact h.refers (0 :: path) zs x zs' y (.proj id i hx) (.proj j i hy)

private theorem letIn {v : Var} {value body : Expr}
    (h : Renamed nodes f g xs ys (.letIn id v value body) e') :
    ∃ j w value' body', e' = .letIn j w value' body' ∧ nodes id j ∧ v.type = w.type ∧
      Renamed nodes f g xs ys value value' ∧
      (f.Counterparts nodes g v.id w.id →
        Renamed nodes f g (v.id :: xs) (w.id :: ys) body body') := by
  obtain ⟨j, w, value', body', rfl, hnode, hty, hvalue, hbody⟩ := Expr.alike_letIn h.alike
  refine ⟨j, w, value', body', rfl, hnode, hty, ⟨hvalue, ?_, h.scopes⟩,
    fun hvw => ⟨hbody, ?_, .cons hvw h.scopes⟩⟩
  · intro path zs x zs' y hx hy
    exact h.refers (0 :: path) zs x zs' y (.letValue id v body hx) (.letValue j w body' hy)
  · intro path zs x zs' y hx hy
    exact h.refers (1 :: path) zs x zs' y (.letBody id v value hx) (.letBody j w value' hy)

end Renamed

/-! ### Encoders alongside each other -/

variable {s t : Encoding}

/-- The encoders have written the same tokens, and they know nodes and variables that correspond by
one number. -/
structure Alongside (nodes : Nat → Nat → Prop) (f g : Function) (s t : Encoding) : Prop where
  inStep : InStep True f g s t
  tokens : s.reversed = t.reversed
  visited : ∀ i j, nodes i j → s.visited.lookup i = t.visited.lookup j
  bound : ∀ x y, f.Counterparts nodes g x y → s.bound.lookup x = t.bound.lookup y

namespace Alongside

private theorem emit (h : Alongside nodes f g s t) (k : Token) :
    Alongside nodes f g (s.emit k) (t.emit k) :=
  ⟨h.inStep.emit k k, congrArg (k :: ·) h.tokens, h.visited, h.bound⟩

private theorem enter (h : Alongside nodes f g s t) (hfg : f.Matched nodes g) {i j : Nat}
    (hij : nodes i j) (hi : s.visited.lookup i = none) (k : Token) :
    Alongside nodes f g (s.enter i k) (t.enter j k) := by
  have hj : t.visited.lookup j = none := h.visited i j hij ▸ hi
  refine ⟨h.inStep.enter hi hj k k, congrArg (k :: ·) h.tokens, ?_, h.bound⟩
  intro i' j' hij'
  have hiff : i' = i ↔ j' = j := Relator.rel_eq hfg.inner hij' hij
  change (s.visit i).visited.lookup i' = (t.visit j).visited.lookup j'
  rw [lookup_visit, lookup_visit, h.inStep.visited, h.visited i' j' hij']
  exact if_congr hiff rfl rfl

/-- Encodings stay alongside each other when counterparts are bound. -/
theorem bind (h : Alongside nodes f g s t) (hfg : f.Matched nodes g) {x y : Nat}
    (hxy : f.Counterparts nodes g x y) (hx : s.bound.lookup x = none) (hf : (s.bind x).Fits f)
    (hg : (t.bind y).Fits g) : Alongside nodes f g (s.bind x) (t.bind y) := by
  have hy : t.bound.lookup y = none := h.bound x y hxy ▸ hx
  refine ⟨h.inStep.bind (fun _ => hx) (fun _ => hy) (fun _ => hf) (fun _ => hg), h.tokens,
    h.visited, ?_⟩
  intro x' y' hxy'
  have hiff : x' = x ↔ y' = y := Relator.rel_eq hfg.binders hxy' hxy
  rw [lookup_bind s hx, lookup_bind t hy, h.inStep.bound trivial, h.bound x' y' hxy']
  exact if_congr hiff rfl rfl

/-- A node that was visited before is written as its number. -/
private theorem again (h : Alongside nodes f g s t) {n : Nat} (he : e.Inner) (he' : e'.Inner)
    (hnode : nodes e.id e'.id) (hn : s.visited.lookup e.id = some n) :
    Alongside nodes f g (s.encode e) (t.encode e') := by
  have hn' : t.visited.lookup e'.id = some n := h.visited _ _ hnode ▸ hn
  rw [encode_of_visited he hn, encode_of_visited he' hn']
  exact h.emit _

/-- Occurrences that refer to one binder are written alike. -/
private theorem occurrence_eq (h : Alongside nodes f g s t) {i j : Nat} {v w : Var}
    (hvw : Renamed nodes f g xs ys (.var i v) (.var j w)) (hs : Stage f xs s (.var i v))
    (ht : Stage g ys t (.var j w)) : s.occurrence v = t.occurrence w := by
  have hsame : SameRef xs ys v.id w.id :=
    hvw.refers [] xs v.id ys w.id (.var i v xs) (.var j w ys)
  by_cases hv : v.id ∈ xs
  · have hlookup : s.bound.lookup v.id = t.bound.lookup w.id :=
      h.bound _ _ (forall₂_of_idxOf? hvw.scopes hv hsame.1)
    obtain ⟨n, hn⟩ := Option.ne_none_iff_exists'.mp (hs.bound v.id hv)
    simp only [occurrence, ← hlookup, hn]
  · have hw : w.id ∉ ys := by
      rwa [← List.idxOf?_eq_none_iff, ← hsame.1, List.idxOf?_eq_none_iff]
    -- outside the scopes, a variable of a tidy function is bound nowhere
    have hfree : s.bound.lookup v.id = none := by
      by_contra hne
      exact hv (hs.inScope [] xs v.id (.var i v xs) ((h.inStep.fitsLeft trivial).binds hne))
    have hfree' : t.bound.lookup w.id = none := by
      by_contra hne
      exact hw (ht.inScope [] ys w.id (.var j w ys) ((h.inStep.fitsRight trivial).binds hne))
    simp only [occurrence, hfree, hfree']
    exact congrArg Token.free (hsame.2 hv)

variable (hfg : f.Matched nodes g)

include hfg

mutual

/-- **Along two encoders.** Encoders alongside each other stay so while they encode corresponding
expressions of tidy functions. -/
theorem encode : (e : Expr) → ∀ {s t : Encoding} {e' : Expr} {xs ys : List Nat},
    Alongside nodes f g s t → Renamed nodes f g xs ys e e' → Stage f xs s e → Stage g ys t e' →
    Alongside nodes f g (s.encode e) (t.encode e')
  | .var i v, s, t, e', xs, ys, h, hr, hs, ht => by
    obtain ⟨j, w, rfl⟩ := Expr.alike_var hr.alike
    rw [Encoding.encode, Encoding.encode, h.occurrence_eq hr hs ht]
    exact h.emit _
  | .const i ty data, s, t, e', xs, ys, h, hr, hs, ht => by
    obtain ⟨j, rfl⟩ := Expr.alike_const hr.alike
    exact h.emit _
  | .call i op attrs args ty, s, t, e', xs, ys, h, hr, hs, ht => by
    obtain ⟨j, args', rfl, hij, hargs⟩ := hr.call
    cases hi : s.visited.lookup i with
    | some n => exact h.again trivial trivial hij hi
    | none =>
      have hj : t.visited.lookup j = none := h.visited i j hij ▸ hi
      rw [encode_call hi, encode_call hj, ← hargs.length_eq]
      exact encodeAll args (h.enter hfg hij hi _) hargs (hs.call _) (ht.call _)
  | .tuple i fields, s, t, e', xs, ys, h, hr, hs, ht => by
    obtain ⟨j, fields', rfl, hij, hfields⟩ := hr.tuple
    cases hi : s.visited.lookup i with
    | some n => exact h.again trivial trivial hij hi
    | none =>
      have hj : t.visited.lookup j = none := h.visited i j hij ▸ hi
      rw [encode_tuple hi, encode_tuple hj, ← hfields.length_eq]
      exact encodeAll fields (h.enter hfg hij hi _) hfields (hs.tuple _) (ht.tuple _)
  | .proj i d n, s, t, e', xs, ys, h, hr, hs, ht => by
    obtain ⟨j, d', rfl, hij, hd⟩ := hr.proj
    cases hi : s.visited.lookup i with
    | some n => exact h.again trivial trivial hij hi
    | none =>
      have hj : t.visited.lookup j = none := h.visited i j hij ▸ hi
      rw [encode_proj hi, encode_proj hj]
      exact encode d (h.enter hfg hij hi _) hd (hs.proj _) (ht.proj _)
  | .letIn i v value body, s, t, e', xs, ys, h, hr, hs, ht => by
    obtain ⟨j, w, value', body', rfl, hij, hty, hvalue, hbody⟩ := hr.letIn
    cases hi : s.visited.lookup i with
    | some n => exact h.again trivial trivial hij hi
    | none =>
      have hj : t.visited.lookup j = none := h.visited i j hij ▸ hi
      have hvw : f.Counterparts nodes g v.id w.id :=
        .letIn hij (hs.lets List.mem_cons_self) (ht.lets List.mem_cons_self)
      have hleft := extends_letIn hfg.left (h.inStep.fitsLeft trivial) hs.lets hi
      have hright := extends_letIn hfg.right (h.inStep.fitsRight trivial) ht.lets hj
      rw [encode_letIn hi, encode_letIn hj]
      have hmid : Alongside nodes f g ((s.enter i (.letIn v.type)).encode value)
          ((t.enter j (.letIn w.type)).encode value') := by
        rw [← hty]
        exact encode value (h.enter hfg hij hi _) hvalue (hs.value _) (ht.value _)
      have hbind := hmid.bind hfg hvw hleft.1 hleft.2.fits hright.2.fits
      exact encode body hbind (hbody hvw) (hs.body hleft.2.keeps (lookup_bind_ne_none _ _))
        (ht.body hright.2.keeps (lookup_bind_ne_none _ _))

/-- The same for several expressions. -/
theorem encodeAll : (es : List Expr) → ∀ {s t : Encoding} {es' : List Expr} {xs ys : List Nat},
    Alongside nodes f g s t → List.Forall₂ (Renamed nodes f g xs ys) es es' →
    (∀ e ∈ es, Stage f xs s e) → (∀ e ∈ es', Stage g ys t e) →
    Alongside nodes f g (s.encodeAll es) (t.encodeAll es')
  | [], s, t, es', xs, ys, h, hr, _, _ => by
    cases hr
    exact h
  | e :: es, s, t, [], xs, ys, _, hr, _, _ => nomatch hr
  | e :: es, s, t, e' :: es', xs, ys, h, .cons he hes, hs, ht => by
    have hse := hs e List.mem_cons_self
    have hte := ht e' List.mem_cons_self
    have hhead := encode e h he hse hte
    have hleft := extends_encode hfg.left (h.inStep.fitsLeft trivial) e hse.lets
    have hright := extends_encode hfg.right (h.inStep.fitsRight trivial) e' hte.lets
    rw [Encoding.encodeAll, Encoding.encodeAll]
    exact encodeAll es hhead hes
      (fun d hd => (hs d (List.mem_cons_of_mem _ hd)).later hleft.keeps)
      (fun d hd => (ht d (List.mem_cons_of_mem _ hd)).later hright.keeps)

end

end Alongside

end

/-! ### Whole functions -/

namespace Function

variable {f g : Function}

/-- Before their bodies are encoded, the encoders are alongside each other. -/
private theorem start_alongside {nodes : Nat → Nat → Prop} (hf : f.Distinct) (hg : g.Distinct)
    (hparams : f.params.map (·.type) = g.params.map (·.type)) :
    Alongside nodes f g f.start g.start := by
  have hlen : f.params.length = g.params.length := by
    simpa using congrArg List.length hparams
  refine ⟨start_inStep (fun _ => hf) (fun _ => hg) hlen, ?_, ?_, ?_⟩
  · have htokens : f.params.map (fun v => Token.param v.type) =
        g.params.map (fun v => Token.param v.type) := by
      simpa [List.map_map, Function.comp_def] using congrArg (List.map Token.param) hparams
    rw [start, start, foldl_param_reversed, foldl_param_reversed, htokens, hlen]
  · intro i j _
    rw [start_visited, start_visited]
    rfl
  · intro x y hxy
    obtain ⟨hfits, -, hbound⟩ := start_bound hf
    obtain ⟨hfits', -, hbound'⟩ := start_bound hg
    cases hxy with
    | @param k _ _ hx hy =>
      rw [paramIds, List.getElem?_map, Option.map_eq_some_iff] at hx hy
      obtain ⟨v, hv, rfl⟩ := hx
      obtain ⟨w, hw, rfl⟩ := hy
      rw [hbound k v hv, hbound' k w hw]
    | letIn _ hx hy =>
      -- no definition was visited yet
      rw [hfits.lookup_eq_none hf hx (by rw [start_visited]; rfl),
        hfits'.lookup_eq_none hg hy (by rw [start_visited]; rfl)]

/-- **Tidy functions that are equal up to the names of variables have one fingerprint.** -/
theorem AlphaEquiv.fingerprint_eq (hf : f.Coherent) (hg : g.Coherent) (hft : f.Tidy) (hgt : g.Tidy)
    (h : f.AlphaEquiv g) : f.fingerprint = g.fingerprint := by
  obtain ⟨hparams, hreturns, nodes, hnodes, hbody⟩ := h.graph
  have hlen : f.params.length = g.params.length := by
    simpa using congrArg List.length hparams
  have hfg : f.Matched nodes g :=
    ⟨hft.distinct, hgt.distinct, hnodes,
      Counterparts.biUnique hft.distinct hgt.distinct hf hg hnodes⟩
  have hrenamed : Renamed nodes f g f.scope g.scope f.body g.body :=
    ⟨hbody, fun path zs x zs' y hx hy => h.refers path zs x zs' y hx hy, Counterparts.scope hlen⟩
  have hend : Alongside nodes f g (f.start.encode f.body) (g.start.encode g.body) :=
    Alongside.encode hfg f.body (start_alongside hft.distinct hgt.distinct hparams) hrenamed
      (start_stage hft) (start_stage hgt)
  have htokens : ((f.start.encode f.body).emit (.returns f.returnType)).reversed =
      ((g.start.encode g.body).emit (.returns g.returnType)).reversed := by
    rw [hreturns]
    exact congrArg (Token.returns g.returnType :: ·) hend.tokens
  exact congrArg (fun tokens => Fingerprint.mk tokens.reverse) htokens

/-- The variable occurs where it is not bound. -/
def Free (f : Function) (x : Nat) : Prop := ∃ path ys, f.body.Occurs f.scope path ys x ∧ x ∉ ys

/-- If none of its bound variables is free in the other function, a function is scoped. -/
theorem Scoped.of_alphaEquiv (h : f.AlphaEquiv g) (hfree : ∀ x, g.Binds x → ¬f.Free x) :
    g.Scoped := by
  obtain ⟨-, -, nodes, -, hbody⟩ := h.graph
  intro path ys y hy hbinds
  by_contra hnotin
  obtain ⟨xs, x, hx⟩ := hy.alike (Expr.Alike.symm f.body hbody) f.scope
  have hsame : SameRef xs ys x y := h.refers path xs x ys y hx hy
  have hxfree : x ∉ xs := by
    rwa [← List.idxOf?_eq_none_iff, hsame.1, List.idxOf?_eq_none_iff]
  obtain rfl : x = y := hsame.2 hxfree
  exact hfree x hbinds ⟨path, xs, hx, hxfree⟩

/-- **The fingerprint does not depend on the names of variables.** Let a function be equal, up to
the names of variables, to a tidy one. If it binds distinct variables that are not free in the tidy
one, it has the same fingerprint. In general it has the same fingerprint exactly if telling its own
variables apart does not change its fingerprint. -/
theorem fingerprint_invariant (hf : f.Coherent) (hg : g.Coherent) (hft : f.Tidy)
    (h : f.AlphaEquiv g) :
    (g.Distinct → (∀ x, g.Binds x → ¬f.Free x) → f.fingerprint = g.fingerprint) ∧
      (f.fingerprint = g.fingerprint ↔ g.Legible) := by
  constructor
  · intro hdistinct hfree
    exact h.fingerprint_eq hf hg hft ⟨hdistinct, .of_alphaEquiv h hfree⟩
  · constructor
    · intro heq
      exact ⟨f, hf, hft, h.symm, heq.symm⟩
    · rintro ⟨g₀, hg₀, hg₀t, hgg₀, heq⟩
      exact ((h.trans hgg₀).fingerprint_eq hf hg₀ hft hg₀t).trans heq.symm

/-- A function that scales its parameter by an attribute that is not a number and returns the result
twice; the second occurrence may be a leaf of its own. -/
def scaledTwice (x y leaf : Nat) : Function :=
  ⟨[⟨x, "x", .handle "t"⟩],
    .letIn 1 ⟨y, "y", .handle "t"⟩
      (.call 2 "scale" (Dict.empty.insert "factor" (.float ⟨0x7ff8000000000000⟩))
        [.var 0 ⟨x, "x", .handle "t"⟩] (.handle "t"))
      (.tuple 3 [.var 4 ⟨y, "y", .handle "t"⟩, .var leaf ⟨y, "y", .handle "t"⟩]),
    .tuple [.handle "t", .handle "t"]⟩

private theorem scaledTwice_occurs {x y leaf z : Nat} {path zs : List Nat}
    (h : (scaledTwice x y leaf).body.Occurs [x] path zs z) :
    (path = [0, 0] ∧ zs = [x] ∧ z = x) ∨
      ((path = [1, 0] ∨ path = [1, 1]) ∧ zs = [y, x] ∧ z = y) := by
  cases h with
  | letValue _ _ _ h =>
    cases h with
    | @call _ _ _ _ _ i _ _ _ _ _ hi h =>
      match i with
      | 0 =>
        obtain rfl := Option.some.inj hi
        cases h
        exact Or.inl ⟨rfl, rfl, rfl⟩
      | _ + 1 => cases hi
  | letBody _ _ _ h =>
    cases h with
    | @tuple _ _ i _ _ _ _ _ hi h =>
      match i with
      | 0 =>
        obtain rfl := Option.some.inj hi
        cases h
        exact Or.inr ⟨Or.inl rfl, rfl, rfl⟩
      | 1 =>
        obtain rfl := Option.some.inj hi
        cases h
        exact Or.inr ⟨Or.inr rfl, rfl, rfl⟩
      | _ + 2 => cases hi

private theorem scaledTwice_coherent (x y : Nat) {leaf : Nat} (hleaf : 4 ≤ leaf) :
    (scaledTwice x y leaf).Coherent := by
  refine ⟨⟨fun i => match i with
    | 0 => .var 0 ⟨x, "x", .handle "t"⟩
    | 1 => (scaledTwice x y leaf).body
    | 2 => .call 2 "scale" (Dict.empty.insert "factor" (.float ⟨0x7ff8000000000000⟩))
        [.var 0 ⟨x, "x", .handle "t"⟩] (.handle "t")
    | 3 => .tuple 3 [.var 4 ⟨y, "y", .handle "t"⟩, .var leaf ⟨y, "y", .handle "t"⟩]
    | i => .var i ⟨y, "y", .handle "t"⟩⟩, rfl, ⟨rfl, rfl, trivial⟩, rfl, rfl, ?_, trivial⟩
  obtain ⟨k, rfl⟩ : ∃ k, leaf = k + 4 := ⟨leaf - 4, by omega⟩
  rfl

private theorem scaledTwice_distinct {x y leaf : Nat} (hxy : x ≠ y) :
    (scaledTwice x y leaf).Distinct := by
  have hlets (i z : Nat) (h : (i, z) ∈ (scaledTwice x y leaf).body.lets) : i = 1 ∧ z = y := by
    simpa [scaledTwice, Expr.lets, Expr.letsAll] using h
  refine ⟨by simp [scaledTwice, paramIds], ?_, ?_⟩
  · intro i z h
    obtain ⟨-, rfl⟩ := hlets i z h
    simpa [scaledTwice, paramIds] using hxy.symm
  · intro i j z hi hj
    rw [(hlets i z hi).1, (hlets j z hj).1]

/-- The variables of `scaledTwice` may be exchanged, and the shared leaf be made two. -/
theorem fingerprint_invariant_exchanged :
    (scaledTwice 0 1 4).AlphaEquiv (scaledTwice 1 0 5) ∧
      (scaledTwice 0 1 4).fingerprint = (scaledTwice 1 0 5).fingerprint := by
  have hscoped : (scaledTwice 0 1 4).Scoped := by
    intro path ys z h _
    obtain ⟨-, rfl, rfl⟩ | ⟨-, rfl, rfl⟩ := scaledTwice_occurs h <;> simp
  have hfree (x : Nat) : ¬(scaledTwice 0 1 4).Free x := by
    rintro ⟨path, ys, h, hx⟩
    obtain ⟨-, rfl, rfl⟩ | ⟨-, rfl, rfl⟩ := scaledTwice_occurs h <;> simp at hx
  have hgraph : (scaledTwice 0 1 4).SameGraph (scaledTwice 1 0 5) :=
    ⟨rfl, rfl, Eq, biUnique_eq, rfl, rfl, ⟨rfl, rfl, rfl, rfl, trivial, trivial⟩, rfl,
      trivial, trivial, trivial⟩
  have hrefers : (scaledTwice 0 1 4).RefersAlike (scaledTwice 1 0 5) := by
    intro path xs x ys y hx hy
    obtain ⟨rfl, rfl, rfl⟩ | ⟨hpath, rfl, rfl⟩ := scaledTwice_occurs hx
    · obtain ⟨-, rfl, rfl⟩ | ⟨hpath, -, -⟩ := scaledTwice_occurs hy
      · exact ⟨rfl, by simp⟩
      · simp at hpath
    · obtain ⟨rfl, -, -⟩ | ⟨-, rfl, rfl⟩ := scaledTwice_occurs hy
      · simp at hpath
      · exact ⟨rfl, by simp⟩
  have halpha : (scaledTwice 0 1 4).AlphaEquiv (scaledTwice 1 0 5) := ⟨hgraph, hrefers⟩
  refine ⟨halpha, (fingerprint_invariant (scaledTwice_coherent 0 1 (by decide))
    (scaledTwice_coherent 1 0 (by decide)) ⟨scaledTwice_distinct (by decide), hscoped⟩ halpha).1
    (scaledTwice_distinct (by decide)) (fun x _ => hfree x)⟩

/-- The functions `(let a = c in a, z)` and `(let z = c in z, z)` differ in the name of a bound
variable only, and have two fingerprints. -/
theorem exists_reused : ∃ f g : Function, f.Coherent ∧ g.Coherent ∧ f.Tidy ∧ g.Distinct ∧
    f.AlphaEquiv g ∧ f.fingerprint ≠ g.fingerprint := by
  let z : Var := ⟨1, "z", .handle "t"⟩
  let pair (v : Var) : Function :=
    ⟨[], .tuple 0 [.letIn 1 v (.tuple 2 []) (.var 3 v), .var 4 z], .tuple []⟩
  have hoccurs {v : Var} {x : Nat} {path ys : List Nat} (h : (pair v).body.Occurs [] path ys x) :
      (path = [0, 1] ∧ ys = [v.id] ∧ x = v.id) ∨ (path = [1] ∧ ys = [] ∧ x = z.id) := by
    cases h with
    | @tuple _ _ i _ _ _ _ _ hi h =>
      match i with
      | 0 =>
        obtain rfl := Option.some.inj hi
        cases h with
        | letValue _ _ _ h =>
          cases h with
          | tuple _ hj _ => cases hj
        | letBody _ _ _ h =>
          cases h
          exact Or.inl ⟨rfl, rfl, rfl⟩
      | 1 =>
        obtain rfl := Option.some.inj hi
        cases h
        exact Or.inr ⟨rfl, rfl, rfl⟩
      | _ + 2 => cases hi
  have hlets {v : Var} {i x : Nat} (h : (i, x) ∈ (pair v).body.lets) : i = 1 ∧ x = v.id := by
    simpa [pair, Expr.lets, Expr.letsAll] using h
  have hcoherent (v : Var) : (pair v).Coherent :=
    ⟨⟨fun i => match i with
      | 0 => (pair v).body
      | 1 => .letIn 1 v (.tuple 2 []) (.var 3 v)
      | 2 => .tuple 2 []
      | 3 => .var 3 v
      | _ => .var 4 z⟩, rfl, ⟨rfl, ⟨rfl, trivial⟩, rfl⟩, rfl, trivial⟩
  have hdistinct (v : Var) : (pair v).Distinct := by
    refine ⟨List.nodup_nil, fun _ _ _ => List.not_mem_nil, ?_⟩
    intro i j x hi hj
    rw [(hlets hi).1, (hlets hj).1]
  let a : Var := ⟨0, "a", .handle "t"⟩
  have hscoped : (pair a).Scoped := by
    rintro path ys x h (hx | ⟨i, hx⟩)
    · cases hx
    · obtain ⟨-, rfl, rfl⟩ | ⟨-, -, rfl⟩ := hoccurs h
      · exact List.mem_cons_self
      · exact absurd (hlets hx).2 (by decide)
  have hrefers : (pair a).RefersAlike (pair z) := by
    intro path xs x ys y hx hy
    obtain ⟨rfl, rfl, rfl⟩ | ⟨rfl, rfl, rfl⟩ := hoccurs hx
    · obtain ⟨-, rfl, rfl⟩ | ⟨hpath, -, -⟩ := hoccurs hy
      · exact ⟨rfl, by simp⟩
      · simp at hpath
    · obtain ⟨hpath, -, -⟩ | ⟨-, rfl, rfl⟩ := hoccurs hy
      · simp at hpath
      · exact ⟨rfl, fun _ => rfl⟩
  have hgraph : (pair a).SameGraph (pair z) :=
    ⟨rfl, rfl, Eq, biUnique_eq, rfl, ⟨rfl, rfl, ⟨rfl, trivial⟩, trivial⟩, trivial, trivial⟩
  exact ⟨pair a, pair z, hcoherent a, hcoherent z, ⟨hdistinct a, hscoped⟩, hdistinct z,
    ⟨hgraph, hrefers⟩, by decide⟩

end Function

end TensorLowering

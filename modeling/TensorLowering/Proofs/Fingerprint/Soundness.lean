import TensorLowering.Proofs.Fingerprint.Pairing
import TensorLowering.Proofs.Graph.Alpha

/-!
# What a fingerprint determines

Functions with one fingerprint have the same graph, whatever variables they bind
(`Function.SameGraph.of_fingerprint`). If they are tidy, they are equal up to the names of
variables (`Function.AlphaEquiv.of_fingerprint`). More generally a function is *legible* if telling
its variables apart does not change its fingerprint, and among functions with one fingerprint the
legible ones are one class (`Function.Legible.alphaEquiv_iff`).

Neither half of tidiness can be left out. A variable that is bound again takes the number of
variables bound so far, which the next variable takes as well: of three parameters `x`, `x` and
`y`, the last two have one number (`exists_rebound`). And a variable keeps its number behind the
end of its definition, where it is free (`exists_unscoped`).
-/

namespace TensorLowering

open Encoding

/-! ### The parameters -/

/-- The encoding of a function before its body. -/
def Function.start (f : Function) : Encoding :=
  f.params.foldl Encoding.param (Encoding.empty.emit (.function f.params.length))

/-- The tokens of parameters are their types. -/
theorem foldl_param_reversed (params : List Var) (s : Encoding) :
    (params.foldl Encoding.param s).reversed =
      (params.map fun v => Token.param v.type).reverse ++ s.reversed := by
  induction params generalizing s with
  | nil => rfl
  | cons v params ih =>
    rw [List.foldl_cons, ih, List.map_cons, List.reverse_cons, List.append_assoc]
    rfl

private theorem foldl_param_visited (params : List Var) (s : Encoding) :
    (params.foldl Encoding.param s).visited = s.visited := by
  induction params generalizing s with
  | nil => rfl
  | cons v params ih => rw [List.foldl_cons, ih]; rfl

/-- Parameters that are told apart take the next numbers in their order. -/
private theorem foldl_param_bound {f : Function} (params : List Var) {s : Encoding} (hs : s.Fits f)
    (hsub : ∀ v ∈ params, v.id ∈ f.paramIds) (hnew : ∀ v ∈ params, s.bound.lookup v.id = none)
    (hnodup : (params.map (·.id)).Nodup) :
    (params.foldl Encoding.param s).Fits f ∧
      Keeps s.bound (params.foldl Encoding.param s).bound ∧
      (params.foldl Encoding.param s).bound.length = s.bound.length + params.length ∧
      ∀ k v, params[k]? = some v →
        (params.foldl Encoding.param s).bound.lookup v.id = some (s.bound.length + k) := by
  induction params generalizing s with
  | nil => exact ⟨hs, Keeps.refl _, rfl, by simp⟩
  | cons v params ih =>
    rw [List.map_cons, List.nodup_cons] at hnodup
    have hv : s.bound.lookup v.id = none := hnew v List.mem_cons_self
    have hb : (s.param v).bound = (v.id, s.bound.length) :: s.bound := bound_bind s hv
    have hfits : (s.param v).Fits f := by
      have := hs.bind hv (Or.inl (hsub v List.mem_cons_self))
      exact ⟨this.numbered, this.settled⟩
    obtain ⟨hend, hkeep, hlen, hlook⟩ := ih hfits
      (fun w hw => hsub w (List.mem_cons_of_mem _ hw)) (fun w hw => by
        have hne : w.id ≠ v.id := fun h => hnodup.1 (h ▸ List.mem_map_of_mem hw)
        rw [hb, lookup_cons_ite, if_neg hne]
        exact hnew w (List.mem_cons_of_mem _ hw)) hnodup.2
    rw [hb, List.length_cons] at hlen
    refine ⟨hend, ?_, ?_, ?_⟩
    · rw [hb] at hkeep
      exact (Keeps.cons hv _).trans hkeep
    · rw [List.foldl_cons, hlen, List.length_cons]
      omega
    · intro k w hw
      cases k with
      | zero =>
        obtain rfl := Option.some.inj hw
        exact hkeep _ _ (by rw [hb, lookup_cons_ite, if_pos rfl]; rfl)
      | succ k =>
        rw [List.foldl_cons, hlook k w hw, hb, List.length_cons]
        congr 1
        omega

namespace Function

variable {f g : Function}

private theorem fingerprint_tokens (f : Function) :
    f.fingerprint.tokens = .function f.params.length :: ((f.params.map fun v => .param v.type) ++
      (f.start.tokens f.body ++ [.returns f.returnType])) := by
  change (Token.returns f.returnType :: (f.start.encode f.body).reversed).reverse = _
  rw [encode_reversed, start, foldl_param_reversed]
  simp [Encoding.emit, Encoding.empty]

/-- One fingerprint: as many parameters of the same types, the same tokens for the body, and the
same return type. -/
theorem eq_of_fingerprint (h : f.fingerprint = g.fingerprint) :
    f.params.map (·.type) = g.params.map (·.type) ∧
      f.start.tokens f.body = g.start.tokens g.body ∧ f.returnType = g.returnType := by
  have htokens := congrArg Fingerprint.tokens h
  rw [fingerprint_tokens, fingerprint_tokens, List.cons.injEq, Token.function.injEq] at htokens
  obtain ⟨hlen, htokens⟩ := htokens
  have hlengths : (f.params.map fun v => Token.param v.type).length =
      (g.params.map fun v => Token.param v.type).length := by
    rw [List.length_map, List.length_map, hlen]
  obtain ⟨hparams, hrest⟩ := List.append_inj htokens hlengths
  obtain ⟨hbody, hreturns⟩ := tokens_append_inj hrest
  refine ⟨?_, hbody, ?_⟩
  · have := congrArg (List.map fun t => match t with | .param ty => ty | _ => default) hparams
    simpa [List.map_map, Function.comp_def] using this
  · simpa using hreturns

/-- Before the body no node was visited. -/
theorem start_visited (f : Function) : f.start.visited = [] := foldl_param_visited f.params _

/-- In a function whose binders are distinct, the parameters are numbered in their order. -/
theorem start_bound (hf : f.Distinct) :
    f.start.Fits f ∧ f.start.bound.length = f.params.length ∧
      ∀ k v, f.params[k]? = some v → f.start.bound.lookup v.id = some k := by
  have hs : (Encoding.empty.emit (.function f.params.length)).Fits f :=
    ⟨Numbered.nil, fun x hx => absurd rfl hx⟩
  obtain ⟨hfits, -, hlen, hlook⟩ := foldl_param_bound f.params hs
    (fun v hv => List.mem_map_of_mem hv) (fun _ _ => rfl) hf.params
  refine ⟨hfits, hlen.trans (Nat.zero_add _), fun k v hv => ?_⟩
  rw [start, hlook k v hv]
  exact congrArg some (Nat.zero_add k)

/-- After parameters of one number, two encodings are in step. -/
theorem start_inStep {tidy : Prop} (hf : tidy → f.Distinct) (hg : tidy → g.Distinct)
    (h : f.params.length = g.params.length) : InStep tidy f g f.start g.start := by
  refine ⟨?_, ?_, ?_, fun ht => (start_bound (hf ht)).1, fun ht => (start_bound (hg ht)).1, ?_⟩
  · rw [start_visited]
    exact Numbered.nil
  · rw [start_visited]
    exact Numbered.nil
  · rw [start_visited, start_visited]
  · intro ht
    rw [(start_bound (hf ht)).2.1, (start_bound (hg ht)).2.1, h]

/-- After the parameters the body is due. -/
theorem start_stage (hf : f.Tidy) : Stage f f.scope f.start f.body := by
  refine ⟨List.Subset.refl _, hf.inScope, ?_⟩
  intro x hx
  rw [scope, List.mem_reverse, paramIds, List.mem_map] at hx
  obtain ⟨v, hv, rfl⟩ := hx
  obtain ⟨k, hk⟩ := List.mem_iff_getElem?.mp hv
  rw [(start_bound hf.distinct).2.2 k v hk]
  exact Option.some_ne_none k

end Function

/-! ### From numbers to graphs -/

section

/-- What holds of lists place by place holds at one place. -/
theorem forall₂_getElem? {α β : Type} {R : α → β → Prop} {as : List α} {bs : List β}
    (h : List.Forall₂ R as bs) {i : Nat} {a : α} {b : β} (ha : as[i]? = some a)
    (hb : bs[i]? = some b) : R a b := by
  obtain ⟨hi, rfl⟩ := List.getElem?_eq_some_iff.mp ha
  obtain ⟨hj, rfl⟩ := List.getElem?_eq_some_iff.mp hb
  exact h.get hi hj

variable {tidy : Prop} {S T : Encoding} {c c' : Catalogue}

/-- Nodes with one number. -/
def SameNode (S T : Encoding) (i j : Nat) : Prop :=
  ∃ n, S.visited.lookup i = some n ∧ T.visited.lookup j = some n

private theorem SameNode.biUnique (hS : Numbered S.visited) (hT : Numbered T.visited) :
    Relator.BiUnique (SameNode S T) := by
  constructor
  · rintro i j k ⟨n, hi, hk⟩ ⟨m, hj, hk'⟩
    obtain rfl : n = m := Option.some.inj (hk.symm.trans hk')
    exact hS.inj i j n hi hj
  · rintro i j k ⟨n, hi, hj⟩ ⟨m, hi', hk⟩
    obtain rfl : n = m := Option.some.inj (hi.symm.trans hi')
    exact hT.inj j k n hj hk

/-- All nodes with one number have the same contents. -/
def AllMatch (tidy : Prop) (S T : Encoding) (c c' : Catalogue) : Prop :=
  ∀ i j, SameNode S T i j → Matches tidy S T (c.node i) (c'.node j)

private theorem AllMatch.node (h : AllMatch tidy S T c c') {e e' : Expr} {n : Nat} (he : e.In c)
    (he' : e'.In c') (hn : S.visited.lookup e.id = some n) (hn' : T.visited.lookup e'.id = some n) :
    Matches tidy S T e e' := by
  have := h e.id e'.id ⟨n, hn, hn'⟩
  rwa [he.node, he'.node] at this

mutual

/-- Expressions that are linked are alike up to their matching nodes. -/
theorem Linked.alike (h : AllMatch tidy S T c c') : {e e' : Expr} → Linked tidy S T e e' →
    e.In c → e'.In c' → e.Alike (SameNode S T) e'
  | _, _, .var .., _, _ => trivial
  | _, _, .const .., _, _ => ⟨rfl, rfl⟩
  | .call .., _, .inner _ _ hn hn', hc, hc' => by
    cases h.node hc hc' hn hn' with
    | call i j op attrs t hargs =>
      exact ⟨⟨_, hn, hn'⟩, rfl, rfl, rfl, alikeAll_of_linked h hargs hc.2 hc'.2⟩
  | .tuple .., _, .inner _ _ hn hn', hc, hc' => by
    cases h.node hc hc' hn hn' with
    | tuple i j hfields => exact ⟨⟨_, hn, hn'⟩, alikeAll_of_linked h hfields hc.2 hc'.2⟩
  | .proj .., _, .inner _ _ hn hn', hc, hc' => by
    cases h.node hc hc' hn hn' with
    | proj i j n hd => exact ⟨⟨_, hn, hn'⟩, rfl, Linked.alike h hd hc.2 hc'.2⟩
  | .letIn .., _, .inner _ _ hn hn', hc, hc' => by
    cases h.node hc hc' hn hn' with
    | letIn i j hty _ hvalue hbody =>
      exact ⟨⟨_, hn, hn'⟩, hty, Linked.alike h hvalue hc.2.1 hc'.2.1,
        Linked.alike h hbody hc.2.2 hc'.2.2⟩

theorem alikeAll_of_linked (h : AllMatch tidy S T c c') : {es es' : List Expr} →
    List.Forall₂ (Linked tidy S T) es es' → Expr.InAll c es → Expr.InAll c' es' →
    Expr.AlikeAll (SameNode S T) es es'
  | [], [], _, _, _ => trivial
  | _ :: _, _ :: _, .cons hd hds, hc, hc' =>
    ⟨Linked.alike h hd hc.1 hc'.1, alikeAll_of_linked h hds hc.2 hc'.2⟩

end

/-! ### From numbers to binders -/

/-- Variables that are bound under one number. -/
def SameBinder (S T : Encoding) (x y : Nat) : Prop :=
  ∃ n, S.bound.lookup x = some n ∧ T.bound.lookup y = some n

/-- Along equal paths, scopes grow by binders with one number, and the occurrences in which the
paths end have one number. -/
private theorem Linked.occurs (h : AllMatch True S T c c') {e : Expr} {xs path zs : List Nat}
    {x : Nat} (hocc : e.Occurs xs path zs x) {e' : Expr} {xs' zs' : List Nat} {y : Nat}
    (hlink : Linked True S T e e') (hc : e.In c) (hc' : e'.In c')
    (hocc' : e'.Occurs xs' path zs' y) (hscope : List.Forall₂ (SameBinder S T) xs xs') :
    List.Forall₂ (SameBinder S T) zs zs' ∧ SameNumber S T x y := by
  induction hocc generalizing e' xs' with
  | var id v xs =>
    cases hlink with
    | inner he => exact he.elim
    | var i j hvw =>
      cases hocc'
      exact ⟨hscope, hvw trivial⟩
  | call id op attrs t hi _ ih =>
    cases hlink with
    | inner _ _ hn hn' =>
      cases h.node hc hc' hn hn' with
      | call i j op attrs t hargs =>
        cases hocc' with
        | call _ _ _ _ hj hocc' =>
          have hmem := List.mem_of_getElem? hi
          have hmem' := List.mem_of_getElem? hj
          exact ih (forall₂_getElem? hargs hi hj) (Expr.inAll_iff.mp hc.2 _ hmem)
            (Expr.inAll_iff.mp hc'.2 _ hmem') hocc' hscope
  | tuple id hi _ ih =>
    cases hlink with
    | inner _ _ hn hn' =>
      cases h.node hc hc' hn hn' with
      | tuple i j hfields =>
        cases hocc' with
        | tuple _ hj hocc' =>
          have hmem := List.mem_of_getElem? hi
          have hmem' := List.mem_of_getElem? hj
          exact ih (forall₂_getElem? hfields hi hj) (Expr.inAll_iff.mp hc.2 _ hmem)
            (Expr.inAll_iff.mp hc'.2 _ hmem') hocc' hscope
  | proj id i _ ih =>
    cases hlink with
    | inner _ _ hn hn' =>
      cases h.node hc hc' hn hn' with
      | proj i j n hd =>
        cases hocc' with
        | proj _ _ hocc' => exact ih hd hc.2 hc'.2 hocc' hscope
  | letValue id v body _ ih =>
    cases hlink with
    | inner _ _ hn hn' =>
      cases h.node hc hc' hn hn' with
      | letIn i j hty hvw hvalue hbody =>
        cases hocc' with
        | letValue _ _ _ hocc' => exact ih hvalue hc.2.1 hc'.2.1 hocc' hscope
  | letBody id v value _ ih =>
    cases hlink with
    | inner _ _ hn hn' =>
      cases h.node hc hc' hn hn' with
      | letIn i j hty hvw hvalue hbody =>
        cases hocc' with
        | letBody _ _ _ hocc' =>
          exact ih hbody hc.2.2 hc'.2.2 hocc' (List.Forall₂.cons (hvw trivial) hscope)

/-- Below binders with one number each, variables with one number are bound at one distance. -/
private theorem SameNumber.idxOf (hS : Numbered S.bound) (hT : Numbered T.bound) {xs ys : List Nat}
    (hscope : List.Forall₂ (SameBinder S T) xs ys) {x y : Nat} (h : SameNumber S T x y) :
    xs.idxOf? x = ys.idxOf? y := by
  induction hscope with
  | nil => rfl
  | @cons a b xs ys hab _ ih =>
    obtain ⟨n, ha, hb⟩ := hab
    have heq : a = x ↔ b = y := by
      constructor
      · rintro rfl
        exact hT.inj b y n hb (h.1 ▸ ha)
      · rintro rfl
        exact hS.inj a x n ha (h.1.trans hb)
    rw [List.idxOf?_cons, List.idxOf?_cons, ih]
    by_cases hax : a = x
    · simp [hax, heq.mp hax]
    · have hby : b ≠ y := fun hby => hax (heq.mpr hby)
      simp [hax, hby]

end

namespace Function

variable {f g : Function}

/-- **Along the two encoders of functions with one fingerprint.** -/
theorem linked_of_fingerprint (tidy : Prop) (hf : tidy → f.Tidy) (hg : tidy → g.Tidy)
    {c c' : Catalogue} (hc : f.body.In c) (hc' : g.body.In c')
    (h : f.fingerprint = g.fingerprint) :
    InStep tidy f g (f.start.encode f.body) (g.start.encode g.body) ∧
      Linked tidy (f.start.encode f.body) (g.start.encode g.body) f.body g.body ∧
      AllMatch tidy (f.start.encode f.body) (g.start.encode g.body) c c' := by
  obtain ⟨hparams, hbody, -⟩ := eq_of_fingerprint h
  have hlen : f.params.length = g.params.length := by
    simpa using congrArg List.length hparams
  have hstart := start_inStep (fun ht => (hf ht).distinct) (fun ht => (hg ht).distinct) hlen
  obtain ⟨hend, hpairs⟩ := follow (S := f.start.encode f.body) (T := g.start.encode g.body)
    (fun ht => (hf ht).distinct) (fun ht => (hg ht).distinct) f.body hstart hc hc'
    (fun ht => start_stage (hf ht)) (fun ht => start_stage (hg ht)) hbody
  obtain ⟨hlink, hnew⟩ := hpairs ⟨Keeps.refl _, fun _ => Keeps.refl _, hend.fitsLeft⟩
    ⟨Keeps.refl _, fun _ => Keeps.refl _, hend.fitsRight⟩
  refine ⟨hend, hlink, ?_⟩
  rintro i j ⟨n, hi, hj⟩
  refine hnew i j n ?_ hi hj
  rw [start_visited]
  exact Nat.zero_le n

/-- Functions with one fingerprint agree in everything but in which variable stands where. -/
theorem SameGraph.of_fingerprint (hf : f.Coherent) (hg : g.Coherent)
    (h : f.fingerprint = g.fingerprint) : f.SameGraph g := by
  obtain ⟨c, hc⟩ := hf
  obtain ⟨c', hc'⟩ := hg
  obtain ⟨hparams, -, hreturns⟩ := eq_of_fingerprint h
  obtain ⟨hend, hlink, hmatch⟩ :=
    linked_of_fingerprint False False.elim False.elim hc hc' h
  exact ⟨hparams, hreturns, _, SameNode.biUnique hend.left hend.right, hlink.alike hmatch hc hc'⟩

/-- The parameters of functions with one fingerprint have one number each. -/
private theorem sameBinder_scope (hf : f.Tidy) (hg : g.Tidy) (h : f.fingerprint = g.fingerprint) :
    List.Forall₂ (SameBinder (f.start.encode f.body) (g.start.encode g.body)) f.scope g.scope := by
  have hlen : f.params.length = g.params.length := by
    simpa using congrArg List.length (eq_of_fingerprint h).1
  have hkeep := (extends_encode hf.distinct (start_bound hf.distinct).1 f.body
    (List.Subset.refl _)).keeps
  have hkeep' := (extends_encode hg.distinct (start_bound hg.distinct).1 g.body
    (List.Subset.refl _)).keeps
  rw [scope, scope, List.forall₂_reverse_iff, paramIds, paramIds, List.forall₂_map_left_iff,
    List.forall₂_map_right_iff, List.forall₂_iff_get]
  refine ⟨hlen, fun k hk hk' => ⟨k, ?_, ?_⟩⟩
  · exact hkeep _ _ ((start_bound hf.distinct).2.2 k _ (List.getElem?_eq_getElem hk))
  · exact hkeep' _ _ ((start_bound hg.distinct).2.2 k _ (List.getElem?_eq_getElem hk'))

/-- **Tidy functions with one fingerprint are equal up to the names of variables.** -/
theorem AlphaEquiv.of_fingerprint (hf : f.Coherent) (hg : g.Coherent) (hft : f.Tidy)
    (hgt : g.Tidy) (h : f.fingerprint = g.fingerprint) : f.AlphaEquiv g := by
  refine ⟨SameGraph.of_fingerprint hf hg h, ?_⟩
  obtain ⟨c, hc⟩ := hf
  obtain ⟨c', hc'⟩ := hg
  obtain ⟨hend, hlink, hmatch⟩ :=
    linked_of_fingerprint True (fun _ => hft) (fun _ => hgt) hc hc' h
  intro path xs x ys y hx hy
  obtain ⟨hscope, hxy⟩ :=
    hlink.occurs hmatch hx hc hc' hy (sameBinder_scope hft hgt h)
  refine ⟨hxy.idxOf (hend.fitsLeft trivial).numbered (hend.fitsRight trivial).numbered hscope, ?_⟩
  intro hfree
  refine hxy.2 ?_
  by_contra hne
  exact hfree (hft.inScope path xs x hx ((hend.fitsLeft trivial).binds hne))

/-- Telling the variables of the function apart does not change its fingerprint: a tidy function
that is equal to it up to the names of variables has the same one. -/
def Legible (f : Function) : Prop :=
  ∃ f₀ : Function, f₀.Coherent ∧ f₀.Tidy ∧ f.AlphaEquiv f₀ ∧ f.fingerprint = f₀.fingerprint

private theorem Tidy.legible (hft : f.Tidy) (hf : f.Coherent) : f.Legible :=
  ⟨f, hf, hft, .refl f, rfl⟩

/-- A legible function is equal, up to the names of variables, to just the legible ones of the
functions with its fingerprint. -/
theorem Legible.alphaEquiv_iff (hf : f.Legible) (h : f.fingerprint = g.fingerprint) :
    f.AlphaEquiv g ↔ g.Legible := by
  obtain ⟨f₀, hfc, hft, hff, hfp⟩ := hf
  constructor
  · intro hfg
    exact ⟨f₀, hfc, hft, hfg.symm.trans hff, h.symm.trans hfp⟩
  · rintro ⟨g₀, hgc, hgt, hgg, hgp⟩
    have htidy : f₀.AlphaEquiv g₀ :=
      AlphaEquiv.of_fingerprint hfc hgc hft hgt (hfp.symm.trans (h.trans hgp))
    exact (hff.trans htidy).trans hgg.symm

/-- **What a fingerprint determines.** Whatever variables they bind, functions with one fingerprint
have the same graph; hence they are equal up to the names of variables exactly if their occurrences
refer to the same binders. If telling the variables of one of them apart does not change its
fingerprint, this is so exactly if the same is true of the other one; it is always so if both are
tidy. -/
theorem fingerprint_determines (hf : f.Coherent) (hg : g.Coherent)
    (h : f.fingerprint = g.fingerprint) :
    f.SameGraph g ∧ (f.AlphaEquiv g ↔ f.RefersAlike g) ∧
      (f.Legible → (f.AlphaEquiv g ↔ g.Legible)) ∧ (f.Tidy → g.Tidy → f.AlphaEquiv g) := by
  have hgraph := SameGraph.of_fingerprint hf hg h
  refine ⟨hgraph, ?_, fun hfl => hfl.alphaEquiv_iff h, fun hft hgt => ?_⟩
  · constructor
    · intro hfg
      exact hfg.refers
    · intro hrefs
      exact ⟨hgraph, hrefs⟩
  · exact ((hft.legible hf).alphaEquiv_iff h).mpr (hgt.legible hg)

/-- A function that names its parameter by a local definition and returns that. -/
def aliasing (x y : Nat) : Function :=
  ⟨[⟨x, "x", .handle "t"⟩],
    .letIn 1 ⟨y, "y", .handle "t"⟩ (.var 0 ⟨x, "x", .handle "t"⟩) (.var 2 ⟨y, "y", .handle "t"⟩),
    .handle "t"⟩

/-- The variables of `aliasing` may be called as one likes. -/
theorem aliasing_alphaEquiv :
    (aliasing 0 1).fingerprint = (aliasing 7 3).fingerprint ∧
      (aliasing 0 1).AlphaEquiv (aliasing 7 3) := by
  have hcoherent (x y : Nat) : (aliasing x y).Coherent :=
    ⟨⟨fun i => match i with
      | 0 => .var 0 ⟨x, "x", .handle "t"⟩
      | 1 => (aliasing x y).body
      | _ => .var 2 ⟨y, "y", .handle "t"⟩⟩, rfl, rfl, rfl⟩
  have htidy (x y : Nat) (hxy : x ≠ y) : (aliasing x y).Tidy := by
    have hlets (i z : Nat) (h : (i, z) ∈ (aliasing x y).body.lets) : i = 1 ∧ z = y := by
      simpa [aliasing, Expr.lets] using h
    refine ⟨⟨by simp [aliasing, paramIds], ?_, ?_⟩, ?_⟩
    · intro i z h
      obtain ⟨-, rfl⟩ := hlets i z h
      simpa [aliasing, paramIds] using hxy.symm
    · intro i j z hi hj
      rw [(hlets i z hi).1, (hlets j z hj).1]
    · intro path ys z hocc _
      cases hocc with
      | letValue _ _ _ hocc => cases hocc; exact List.mem_cons_self
      | letBody _ _ _ hocc => cases hocc; exact List.mem_cons_self
  have h : (aliasing 0 1).fingerprint = (aliasing 7 3).fingerprint := rfl
  exact ⟨h, (fingerprint_determines (hcoherent 0 1) (hcoherent 7 3) h).2.2.2
    (htidy 0 1 (by decide)) (htidy 7 3 (by decide))⟩

/-- The last two of three parameters `x`, `x` and `y` have one number: two functions with one
fingerprint that return different parameters. -/
theorem exists_rebound : ∃ f g : Function, f.Coherent ∧ g.Coherent ∧ f.Scoped ∧ g.Scoped ∧
    f.fingerprint = g.fingerprint ∧ ¬f.AlphaEquiv g := by
  let x : Var := ⟨0, "x", .handle "t"⟩
  let y : Var := ⟨1, "y", .handle "t"⟩
  refine ⟨⟨[x, x, y], .var 0 x, .handle "t"⟩, ⟨[x, x, y], .var 0 y, .handle "t"⟩,
    ⟨⟨fun _ => .var 0 x⟩, rfl⟩, ⟨⟨fun _ => .var 0 y⟩, rfl⟩, ?_, ?_, rfl, ?_⟩
  · intro path ys z hocc _
    cases hocc
    simp [scope, paramIds, x, y]
  · intro path ys z hocc _
    cases hocc
    simp [scope, paramIds, x, y]
  · intro h
    have := h.refers [] _ _ _ _ (.var 0 x _) (.var 0 y _)
    exact absurd this.1 (by decide)

/-- A variable keeps its number behind the end of its definition: of the pairs
`(let x = c in x, x)` and `(let y = c in y, y)` with two free variables at their ends, the
fingerprint is one. -/
theorem exists_unscoped : ∃ f g : Function, f.Coherent ∧ g.Coherent ∧ f.Distinct ∧ g.Distinct ∧
    f.fingerprint = g.fingerprint ∧ ¬f.AlphaEquiv g := by
  let body (v : Var) : Expr :=
    .tuple 0 [.letIn 1 v (.tuple 2 []) (.var 3 v), .var 3 v]
  let x : Var := ⟨0, "x", .handle "t"⟩
  let y : Var := ⟨1, "y", .handle "t"⟩
  have hcoherent (v : Var) : (⟨[], body v, .tuple []⟩ : Function).Coherent :=
    ⟨⟨fun i => match i with
      | 0 => body v
      | 1 => .letIn 1 v (.tuple 2 []) (.var 3 v)
      | 2 => .tuple 2 []
      | _ => .var 3 v⟩, rfl, ⟨rfl, ⟨rfl, trivial⟩, rfl⟩, rfl, trivial⟩
  have hdistinct (v : Var) : (⟨[], body v, .tuple []⟩ : Function).Distinct := by
    refine ⟨List.nodup_nil, fun _ _ _ => List.not_mem_nil, ?_⟩
    intro i j z hi hj
    have hlets (i : Nat) (h : (i, z) ∈ (body v).lets) : i = 1 := by
      have : i = 1 ∧ z = v.id := by simpa [body, Expr.lets, Expr.letsAll] using h
      exact this.1
    rw [hlets i hi, hlets j hj]
  refine ⟨⟨[], body x, .tuple []⟩, ⟨[], body y, .tuple []⟩, hcoherent x, hcoherent y, hdistinct x,
    hdistinct y, rfl, ?_⟩
  intro h
  have hfree := h.refers [1] _ _ _ _ (.tuple 0 rfl (.var 3 x _)) (.tuple 0 rfl (.var 3 y _))
  exact absurd (hfree.2 List.not_mem_nil) (by decide)

end Function

end TensorLowering

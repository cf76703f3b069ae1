import TensorLowering.Lowering.Walk
import TensorLowering.Proofs.Lowering.Normalize
import Mathlib.Data.List.Nodup

/-!
# Constants and parameters side by side

A constant whose dimensions are known takes no number but that of its tensor
(`TensorType.hasUnknown`), so it does not matter whether one side makes a tensor for it where the
other side has one already (`Register.IsConstant`).

The placeholders of parameters are made in order on both sides (`SideBySide.bindParams`). From
then on they can be told by their positions (`Correspondence.withInputs`).
-/

namespace TensorLowering

open Setting

variable {σ : Type} {b : Nat}

/-! ### Constants -/

/-- The normal form of a dimension that is known. -/
def knownDim : IndexExpr → Except Fault IndexExpr
  | .imm n _ => if InHalfWord n then .ok (.imm n .int32) else .error (.dimensionOverflow n)
  | e => .ok e

/-- The normal form of dimensions that are known. -/
def knownShape : List IndexExpr → Except Fault (List IndexExpr)
  | [] => .ok []
  | e :: es => do return (← knownDim e) :: (← knownShape es)

private theorem normalizeDim_eq_knownDim {e : IndexExpr} (h : e.hasUnknown = false)
    (lots : Nat → Nat) (n : Nat) : normalizeDim lots n e = (knownDim e).map fun e => (e, n) := by
  cases e with
  | unknown => exact nomatch h
  | imm m t =>
    rw [normalizeDim, knownDim]
    split <;> rfl
  | var | arith | compare | and | or | not => rfl

/-- Known dimensions take no numbers. -/
theorem normalizeShape_eq_knownShape {shape : List IndexExpr}
    (h : shape.any IndexExpr.hasUnknown = false) (lots : Nat → Nat) (n : Nat) :
    normalizeShape n shape lots = (knownShape shape).map fun shape => (shape, n) := by
  induction shape with
  | nil => rfl
  | cons e shape ih =>
    rw [List.any_cons, Bool.or_eq_false_iff] at h
    rw [normalizeShape, knownShape, normalizeDim_eq_knownDim h.1]
    cases knownDim e with
    | error e => rfl
    | ok d =>
      change (normalizeShape n shape lots >>= _) = _
      rw [ih h.2]
      cases knownShape shape <;> rfl

private theorem knownDim_below {e d : IndexExpr} (he : e.Below b) (h : knownDim e = .ok d) :
    d.Below b := by
  cases e with
  | imm m t =>
    rw [knownDim] at h
    split at h
    · obtain rfl := Except.ok.inj h
      trivial
    · exact nomatch h
  | var | unknown | arith | compare | and | or | not =>
    obtain rfl := Except.ok.inj h
    exact he

/-- Dimensions that are known become no new variables. -/
theorem knownShape_below {shape ds : List IndexExpr} (hshape : ∀ e ∈ shape, e.Below b)
    (h : knownShape shape = .ok ds) : ∀ d ∈ ds, d.Below b := by
  induction shape generalizing ds with
  | nil =>
    obtain rfl := Except.ok.inj h
    exact fun d hd => absurd hd List.not_mem_nil
  | cons e shape ih =>
    rw [List.forall_mem_cons] at hshape
    rw [knownShape] at h
    cases hd : knownDim e with
    | error f =>
      rw [hd] at h
      exact nomatch h
    | ok d =>
      cases hrest : knownShape shape with
      | error f =>
        rw [hd, hrest] at h
        exact nomatch h
      | ok rest =>
        rw [hd, hrest] at h
        obtain rfl := Except.ok.inj h
        rw [List.forall_mem_cons]
        exact ⟨knownDim_below hshape.1 hd, ih hshape.2 hrest⟩

/-- The tensors that stand for a constant of the type. -/
inductive ConstantForm : Aspect → TensorType → Tensor → Prop where
  | value (id : Nat) {t : TensorType} {shape : List IndexExpr} : knownShape t.shape = .ok shape →
      ConstantForm .values t (.placeholder id "compile_engine_const" shape t.dtype)
  | shape (id : Nat) (t : TensorType) : ConstantForm .shapes t
      (.computed id "shape_const" (shapeExtent t.rank) .int64 "shape_const" [] none)

/-- The tensor was made for a constant of the type. -/
structure Register.IsConstant (r : Register) (a : Aspect) (t : TensorType) (u : Tensor) :
    Prop where
  made : r.made u
  noParam : r.params.idxOf? u.id = none
  form : ConstantForm a t u

/-- A constant stays one when more tensors are made. -/
theorem Register.IsConstant.mono {r r' : Register} (hr : r.Grows r') {a : Aspect}
    {t : TensorType} {u : Tensor} (h : r.IsConstant a t u) : r'.IsConstant a t u :=
  ⟨hr.made u h.made, hr.params.symm ▸ h.noParam, h.form⟩

/-- Why there is no tensor for a constant of the type. -/
def constantFault (a : Aspect) (t : TensorType) (e : Fault) : Prop :=
  a = .values ∧ knownShape t.shape = .error e

/-- A constant that was made has no dimension that does not fit. -/
theorem ConstantForm.no_fault {a : Aspect} {t : TensorType} {u : Tensor}
    (h : ConstantForm a t u) {e : Fault} : ¬ constantFault a t e := by
  rintro ⟨ha, he⟩
  cases h with
  | value id hok =>
    rw [hok] at he
    exact nomatch he
  | shape => exact nomatch ha

/-- A constant has a tensor or a fault, which depends on nothing but its type. -/
theorem constantTensor_cases {t : TensorType} (ht : t.hasUnknown = false) (a : Aspect)
    {r : Register} {m : Machine σ} (hm : m.next = r.next) :
    (∃ e, constantFault a t e ∧ constantTensor a t m = (.fault e, m)) ∨
      ∃ u r', r.Grows r' ∧ r'.IsConstant a t u ∧
        constantTensor a t m = (.ok u, { m with next := r'.next }) := by
  -- the tensor is new, and computed from nothing
  have hmake (u : Tensor) (hid : u.id = m.next) (hnil : u.inputs = []) (hform : ConstantForm a t u)
      (hrun : constantTensor a t m = (.ok u, { m with next := m.next + 1 })) :
      ∃ u r', r.Grows r' ∧ r'.IsConstant a t u ∧
        constantTensor a t m = (.ok u, { m with next := r'.next }) := by
    have hnew : u.id = r.next := hid.trans hm
    have hinputs : ∀ v ∈ u.inputs, r.made v := by
      rw [hnil]
      exact fun v hv => absurd hv List.not_mem_nil
    refine ⟨u, r.make u hnew hinputs, r.grows_make u hnew hinputs, ⟨Or.inr rfl, ?_, hform⟩, ?_⟩
    · rw [hnew]
      exact r.idxOf?_next
    · rw [hrun, hm]
      rfl
  cases a with
  | shapes => exact Or.inr (hmake _ rfl rfl (.shape m.next t) rfl)
  | values =>
    have hshape := normalizeShape_eq_knownShape ht m.lots m.next
    cases hknown : knownShape t.shape with
    | error e =>
      rw [hknown] at hshape
      have htake : (Action.takeNumbers fun lots n => normalizeShape n t.shape lots) m =
          (.fault e, m) := by
        unfold Action.takeNumbers
        dsimp only
        rw [hshape]
        rfl
      refine Or.inl ⟨e, ⟨rfl, hknown⟩, ?_⟩
      change Action.bind (Action.takeNumbers fun lots n => normalizeShape n t.shape lots) _ m = _
      unfold Action.bind
      rw [htake]
    | ok shape =>
      rw [hknown] at hshape
      have htake : (Action.takeNumbers fun lots n => normalizeShape n t.shape lots) m =
          (.ok shape, m) := by
        unfold Action.takeNumbers
        dsimp only
        rw [hshape]
        rfl
      refine Or.inr (hmake _ rfl rfl (.value m.next hknown) ?_)
      change Action.bind (Action.takeNumbers fun lots n => normalizeShape n t.shape lots) _ m = _
      unfold Action.bind
      rw [htake]
      rfl

/-- Tensors for constants of one type look alike, however many were made on either side. -/
theorem ConstantForm.same {w : Correspondence} {a : Aspect} {t : TensorType} {u u' : Tensor}
    (hloose : w.Loose) (hw : ∀ i : SymId, i.draw < b → w.numbers i i) (ht : t.Below b)
    (h : w.left.IsConstant a t u) (h' : w.right.IsConstant a t u') : w.Same u u' := by
  refine ⟨h.made, h'.made, hloose u u', ?_⟩
  have hform := h.form
  have hnone := h.noParam
  have hform' := h'.form
  have hnone' := h'.noParam
  cases hform with
  | @value id t shape hshape =>
    cases hform' with
    | @value id' t shape' hshape' =>
      obtain rfl : shape = shape' := Except.ok.inj (hshape.symm.trans hshape')
      have hbelow := knownShape_below ht hshape
      exact ⟨hnone.trans hnone'.symm,
        List.forall₂_same.mpr fun e he => (hbelow e he).alike hw, rfl⟩
  | shape id t =>
    cases hform' with
    | shape id' t =>
      have hextent : List.Forall₂ (IndexExpr.Alike w.numbers) (shapeExtent t.rank)
          (shapeExtent t.rank) := List.Forall₂.cons (.imm _ _) List.Forall₂.nil
      exact ⟨hextent, rfl, rfl, rfl, trivial⟩

/-! ### Placeholders of parameters -/

/-- Placeholders with different numbers, from `n` on. -/
structure NewPlaceholders (n : Nat) (ts : List Tensor) : Prop where
  isPlaceholder : ∀ t ∈ ts, t.isPlaceholder = true
  le : ∀ t ∈ ts, n ≤ t.id
  nodup : (ts.map Tensor.id).Nodup

theorem NewPlaceholders.nil (n : Nat) : NewPlaceholders n [] :=
  ⟨fun _ h => absurd h List.not_mem_nil, fun _ h => absurd h List.not_mem_nil, List.nodup_nil⟩

/-- Placeholders that were made behind new ones are new. -/
theorem NewPlaceholders.append {n n' : Nat} {ts us : List Tensor} (h : NewPlaceholders n ts)
    (h' : NewPlaceholders n' us) (hn : n ≤ n') (hlt : ∀ t ∈ ts, t.id < n') :
    NewPlaceholders n (ts ++ us) := by
  refine ⟨?_, ?_, ?_⟩
  · rw [List.forall_mem_append]
    exact ⟨h.isPlaceholder, h'.isPlaceholder⟩
  · rw [List.forall_mem_append]
    exact ⟨h.le, fun u hu => Nat.le_trans hn (h'.le u hu)⟩
  · rw [List.map_append, List.nodup_append]
    refine ⟨h.nodup, h'.nodup, ?_⟩
    intro i hi j hj
    obtain ⟨t, ht, rfl⟩ := List.mem_map.mp hi
    obtain ⟨u, hu, rfl⟩ := List.mem_map.mp hj
    have hless := hlt t ht
    have hmore := h'.le u hu
    omega

/-- Placeholders that look alike, and are new since `w` on both sides. -/
structure NewInputs (w w' : Correspondence) (ts ts' : List Tensor) : Prop where
  same : w'.SameAll ts ts'
  left : NewPlaceholders w.left.next ts
  right : NewPlaceholders w.right.next ts'

namespace NewInputs

variable {w w₁ w₂ : Correspondence} {ts ts' us us' : List Tensor}

theorem nil (w w' : Correspondence) : NewInputs w w' [] [] :=
  ⟨List.Forall₂.nil, .nil _, .nil _⟩

/-- Inputs that were made behind new ones are new. -/
theorem append (h : NewInputs w w₁ ts ts') (h' : NewInputs w₁ w₂ us us') (hw : w.Grows w₁)
    (hw₁ : w₁.Grows w₂) : NewInputs w w₂ (ts ++ us) (ts' ++ us') := by
  obtain ⟨hmade, hmade'⟩ := Correspondence.made_of_same h.same
  refine ⟨List.rel_append (hw₁.sameAll h.same) h'.same, ?_, ?_⟩
  · exact h.left.append h'.left hw.left.next fun t ht => w₁.left.id_lt t (hmade t ht)
  · exact h.right.append h'.right hw.right.next fun t ht => w₁.right.id_lt t (hmade' t ht)

private theorem before (h : NewInputs w₁ w₂ ts ts') (hw : w.Grows w₁) : NewInputs w w₂ ts ts' := by
  refine ⟨h.same, ?_, ?_⟩
  · exact ⟨h.left.isPlaceholder, fun t ht => Nat.le_trans hw.left.next (h.left.le t ht),
      h.left.nodup⟩
  · exact ⟨h.right.isPlaceholder, fun t ht => Nat.le_trans hw.right.next (h.right.le t ht),
      h.right.nodup⟩

end NewInputs

namespace Progress

/-- Bind variables to tensors, one after the other. -/
def bindAll (p : Progress) (xs : List (Var × List Tensor)) : Progress :=
  xs.foldl (fun p x => p.bind x.1 x.2) p

/-- To bind variables neither remembers nodes nor lowers calls. -/
theorem bindAll_memo (p : Progress) (xs : List (Var × List Tensor)) :
    (p.bindAll xs).memo = p.memo ∧ (p.bindAll xs).calls = p.calls ∧
      (p.bindAll xs).ops = p.ops := by
  induction xs generalizing p with
  | nil => exact ⟨rfl, rfl, rfl⟩
  | cons x xs ih => exact ih (p.bind x.1 x.2)

/-- A variable that is none of those that were bound has what it had. -/
theorem lookup_bindAll_of_notMem {xs : List (Var × List Tensor)} {y : Nat}
    (hy : y ∉ xs.map fun x => x.1.id) (p : Progress) :
    (p.bindAll xs).bound.lookup y = p.bound.lookup y := by
  induction xs generalizing p with
  | nil => rfl
  | cons x xs ih =>
    rw [List.map_cons, List.mem_cons, not_or] at hy
    have hrest : ((p.bind x.1 x.2).bindAll xs).bound.lookup y = _ := ih hy.2 (p.bind x.1 x.2)
    have hfirst : (p.bind x.1 x.2).bound.lookup y = p.bound.lookup y := by
      change List.lookup y ((x.1.id, x.2) :: p.bound) = _
      rw [List.lookup_cons, beq_false_of_ne hy.1]
    exact hrest.trans hfirst

/-- Variables that are told apart have the tensors that they were bound to. -/
theorem lookup_bindAll {xs : List (Var × List Tensor)} (hxs : (xs.map fun x => x.1.id).Nodup)
    (p : Progress) {k : Nat} {x : Var × List Tensor} (hx : xs[k]? = some x) :
    (p.bindAll xs).bound.lookup x.1.id = some x.2 := by
  induction xs generalizing p k with
  | nil => exact nomatch hx
  | cons y xs ih =>
    rw [List.map_cons, List.nodup_cons] at hxs
    cases k with
    | zero =>
      obtain rfl := Option.some.inj hx
      have hrest : ((p.bind y.1 y.2).bindAll xs).bound.lookup y.1.id = _ :=
        lookup_bindAll_of_notMem hxs.1 (p.bind y.1 y.2)
      have hfirst : (p.bind y.1 y.2).bound.lookup y.1.id = some y.2 := by
        change List.lookup y.1.id ((y.1.id, y.2) :: p.bound) = _
        rw [List.lookup_cons, beq_self_eq_true]
      exact hrest.trans hfirst
    | succ k => exact ih hxs.2 (p.bind y.1 y.2) hx

end Progress

/-- The correspondences in `D` stay in it when placeholders are made for tensor types in `T`. -/
structure Setting.Admits (k : Setting σ) (D : Correspondence → Prop) (T : TensorType → Prop) :
    Prop where
  make : ∀ w w' t t', w.Adds w' t t' → D w → D w'
  shape : ∀ w t, D w → T t → k.SideBySideIn D w
    (fun w => List.Forall₂ (IndexExpr.Alike w.numbers))
    (Action.takeNumbers fun lots next => normalizeShape next t.shape lots)
    (Action.takeNumbers fun lots next => normalizeShape next t.shape lots)

/-- It is enough that `D` is closed, and that old symbolic variables correspond to themselves. -/
private theorem Setting.admits_below (k : Setting σ) {D : Correspondence → Prop}
    (hD : Correspondence.Closed D) (b : Nat) :
    k.Admits (fun w => D w ∧ ∀ i : SymId, i.draw < b → w.numbers i i) (TensorType.Below b) := by
  constructor
  · intro w w' u u' h hw
    exact ⟨hD.make w w' u u' h hw.1, fun i hi => h.grows.numbers i i (hw.2 i hi)⟩
  · intro w t hw ht
    have hshape := (ht.alike hw.2).shape
    refine (SideBySide.takeNumbers fun lots lots' =>
      Correspondence.draws_normalizeShape hshape).imp ?_
    intro w' shape shape' hw' hs
    exact ⟨⟨hD.draw w w' hw' hs.1 hw.1, fun i hi => hw'.numbers i i (hw.2 i hi)⟩, hs.2⟩

namespace Setting.SideBySide

variable {k : Setting σ} {w : Correspondence}

private theorem newPlaceholder {name name' : String} (hname : w.Loose ∨ name = name')
    {shape shape' : List IndexExpr}
    (hshape : List.Forall₂ (IndexExpr.Alike w.numbers) shape shape') (dtype : DataType) :
    k.SideBySide w (fun w' t t' => w.Adds w' t t' ∧ NewInputs w w' [t] [t'])
      (Action.placeholder name shape dtype) (Action.placeholder name' shape' dtype) := by
  intro m m' hm
  have hends : k.Ends w w.Adds
      (.ok (.placeholder m.next name shape dtype), { m with next := m.next + 1 })
      (.ok (.placeholder m'.next name' shape' dtype), { m' with next := m'.next + 1 }) :=
    placeholder hname hshape dtype m m' hm
  have hone (n : Nat) (name : String) (shape : List IndexExpr) :
      NewPlaceholders n [.placeholder n name shape dtype] := by
    refine ⟨?_, ?_, List.pairwise_singleton _ _⟩
    · rw [List.forall_mem_singleton]
      rfl
    · rw [List.forall_mem_singleton]
      exact Nat.le_refl n
  cases hends with
  | ok hgrows hholds hadds =>
    refine Ends.ok hgrows hholds ⟨hadds, List.Forall₂.cons hadds.same List.Forall₂.nil, ?_, ?_⟩
    · rw [← hm.next]
      exact hone m.next name shape
    · rw [← hm.next']
      exact hone m'.next name' shape'

variable {D : Correspondence → Prop} {T : TensorType → Prop}

section

variable (hadmits : k.Admits D T)

include hadmits

private theorem inputTensor (hw : D w) (a : Aspect) {name name' : String}
    (hname : (∀ w, D w → w.Loose) ∨ name = name') {t : TensorType} (ht : T t) :
    k.SideBySideIn D w (fun w' u u' => NewInputs w w' [u] [u'])
      (TensorLowering.inputTensor a name t) (TensorLowering.inputTensor a name' t) := by
  cases a with
  | values =>
    refine (hadmits.shape w t hw ht).bind fun w₁ shape shape' hw₁ hs => ?_
    have hname₁ : w₁.Loose ∨ name = name' := hname.imp_left fun h => h w₁ hs.1
    refine (newPlaceholder hname₁ hs.2 t.dtype).imp fun w₂ u u' _ hu => ?_
    exact ⟨hadmits.make w₁ w₂ u u' hu.1 hs.1, hu.2.before hw₁⟩
  | shapes =>
    have hextent : List.Forall₂ (IndexExpr.Alike w.numbers) (shapeExtent t.rank)
        (shapeExtent t.rank) := List.Forall₂.cons (.imm _ _) List.Forall₂.nil
    have hname₁ : w.Loose ∨ name = name' := hname.imp_left fun h => h w hw
    refine (newPlaceholder hname₁ hextent .int64).imp fun w₁ u u' _ hu => ?_
    exact ⟨hadmits.make w w₁ u u' hu.1 hw, hu.2⟩

private theorem inputTensors (hw : D w) (a : Aspect) {name name' : String}
    (hname : (∀ w, D w → w.Loose) ∨ name = name') {ts : List TensorType} (hts : ∀ t ∈ ts, T t) :
    k.SideBySideIn D w (NewInputs w) (TensorLowering.inputTensors a name ts)
      (TensorLowering.inputTensors a name' ts) := by
  induction ts generalizing w with
  | nil => exact pure ⟨hw, NewInputs.nil w w⟩
  | cons t ts ih =>
    rw [List.forall_mem_cons] at hts
    unfold TensorLowering.inputTensors
    refine (inputTensor hadmits hw a hname hts.1).bind fun w₁ u u' hw₁ hu => ?_
    refine (ih hu.1 hts.2).bind fun w₂ us us' hw₂ hus => ?_
    exact pure ⟨hus.1, hu.2.append hus.2 hw₁ hw₂⟩

/-- **The placeholders of parameters look alike**, and the parameters are bound to them. The
parameters have the same names on both sides, if names matter at all. -/
theorem bindParams_in (hw : D w) (v : Walk σ) (p q : Progress) {xs ys : List Var}
    (hnames : (∀ w, D w → w.Loose) ∨ xs.map Var.name = ys.map Var.name)
    (htypes : xs.map Var.type = ys.map Var.type) (hxs : ∀ x ∈ xs, ∀ leaf ∈ x.type.leaves, T leaf) :
    k.SideBySideIn D w (fun w' r r' => ∃ tss tss', tss.length = xs.length ∧
        List.Forall₂ w'.SameAll tss tss' ∧ NewInputs w w' tss.flatten tss'.flatten ∧
        r = (tss.flatten, p.bindAll (xs.zip tss)) ∧ r' = (tss'.flatten, q.bindAll (ys.zip tss')))
      (v.bindParams p xs) (v.bindParams q ys) := by
  induction xs generalizing ys p q w with
  | nil =>
    obtain rfl := List.map_eq_nil_iff.mp htypes.symm
    exact pure ⟨hw, [], [], rfl, List.Forall₂.nil, NewInputs.nil w w, rfl, rfl⟩
  | cons x xs ih =>
    cases ys with
    | nil => exact nomatch htypes
    | cons y ys =>
      simp only [List.map_cons, List.cons.injEq] at hnames htypes
      rw [List.forall_mem_cons] at hxs
      unfold Walk.bindParams
      rw [← htypes.1]
      refine (inputTensors hadmits hw v.aspect (hnames.imp_right And.left) hxs.1).bind ?_
      intro w₁ ts ts' hw₁ hts
      refine (ih hts.1 (p.bind x ts) (q.bind y ts') (hnames.imp_right And.right) htypes.2
        hxs.2).bind ?_
      rintro w₂ r r' hw₂ ⟨hD₂, tss, tss', hlen, hsame, hnew, rfl, rfl⟩
      refine pure ⟨hD₂, ts :: tss, ts' :: tss', congrArg (· + 1) hlen, ?_, ?_, rfl, rfl⟩
      · exact List.Forall₂.cons (hw₂.sameAll hts.2.same) hsame
      · exact hts.2.append hnew hw₁ hw₂

end

/-- The same if `D` is closed and old symbolic variables correspond to themselves. -/
theorem bindParams (hD : Correspondence.Closed D) (hw : D w)
    (hold : ∀ i : SymId, i.draw < b → w.numbers i i) (v : Walk σ) (p q : Progress)
    {xs ys : List Var} (hnames : (∀ w, D w → w.Loose) ∨ xs.map Var.name = ys.map Var.name)
    (htypes : xs.map Var.type = ys.map Var.type) (hxs : ∀ x ∈ xs, x.type.Below b) :
    k.SideBySideIn D w (fun w' r r' => ∃ tss tss', tss.length = xs.length ∧
        List.Forall₂ w'.SameAll tss tss' ∧ NewInputs w w' tss.flatten tss'.flatten ∧
        r = (tss.flatten, p.bindAll (xs.zip tss)) ∧ r' = (tss'.flatten, q.bindAll (ys.zip tss')))
      (v.bindParams p xs) (v.bindParams q ys) := by
  have hadmits := k.admits_below hD b
  refine (bindParams_in hadmits ⟨hw, hold⟩ v p q (hnames.imp_left fun h w hw => h w hw.1) htypes
    hxs).imp ?_
  exact fun _ _ _ _ h => ⟨h.1.1, h.2⟩

end Setting.SideBySide

/-! ### Parameters known by their positions -/

/-- The correspondence in which the parameters have these placeholders. -/
def Correspondence.withInputs (w : Correspondence) (ts ts' : List Tensor) (h : w.SameAll ts ts') :
    Correspondence where
  left := w.left.withParams (ts.map Tensor.id) <| by
    intro i hi
    obtain ⟨t, ht, rfl⟩ := List.mem_map.mp hi
    exact w.left.id_lt t ((Correspondence.made_of_same h).1 t ht)
  right := w.right.withParams (ts'.map Tensor.id) <| by
    intro i hi
    obtain ⟨t, ht, rfl⟩ := List.mem_map.mp hi
    exact w.right.id_lt t ((Correspondence.made_of_same h).2 t ht)
  numbers := w.numbers
  tensors := w.tensors
  drawn := w.drawn
  biUnique := w.biUnique

/-- Tensors stay told apart when inputs become known by their positions. -/
theorem Correspondence.Strict.withInputs {w : Correspondence} (hw : w.Strict) {ts ts' : List Tensor}
    (h : w.SameAll ts ts') : (w.withInputs ts ts' h).Strict :=
  ⟨hw.biUnique, hw.made, hw.name, hw.inputs⟩

/-- Placeholders that look alike still do when their numbers stand at one position. -/
private theorem Tensor.Alike.withParams {R : SymId → SymId → Prop}
    {params params' ids ids' : List Nat} {t t' : Tensor} (ht : t.isPlaceholder = true)
    (h : Tensor.Alike R params params' t t') (hids : ids.idxOf? t.id = ids'.idxOf? t'.id) :
    Tensor.Alike R ids ids' t t' := by
  match t, t', h with
  | .placeholder .., .placeholder .., h => exact ⟨hids, h.2⟩
  | .computed .., .computed .., _ => exact nomatch ht

/-- In a list without repetitions, what stands at a position has that position. -/
private theorem idxOf?_of_nodup {ids : List Nat} (h : ids.Nodup) {n i : Nat}
    (hi : ids[n]? = some i) : ids.idxOf? i = some n := by
  obtain ⟨hn, rfl⟩ := List.getElem?_eq_some_iff.mp hi
  rw [List.idxOf?_eq_some_iff]
  refine ⟨hn, rfl, fun j hj heq => ?_⟩
  have hjn : j = n := h.getElem_inj_iff.mp heq
  omega

/-- Inputs at one position look alike when they are known by their positions. -/
theorem NewInputs.same_withInputs {w w' : Correspondence} {ts ts' : List Tensor}
    (h : NewInputs w w' ts ts') : (w'.withInputs ts ts' h.same).SameAll ts ts' := by
  refine List.forall₂_iff_get.mpr ⟨h.same.length_eq, fun n hn hn' => ?_⟩
  have hsame := h.same.get hn hn'
  refine ⟨hsame.left, hsame.right, hsame.related, ?_⟩
  refine hsame.alike.withParams (h.left.isPlaceholder _ (List.get_mem ts ⟨n, hn⟩)) ?_
  have hid : (ts.map Tensor.id)[n]? = some (ts.get ⟨n, hn⟩).id := by
    rw [List.getElem?_map, List.getElem?_eq_getElem hn]
    rfl
  have hid' : (ts'.map Tensor.id)[n]? = some (ts'.get ⟨n, hn'⟩).id := by
    rw [List.getElem?_map, List.getElem?_eq_getElem hn']
    rfl
  exact (idxOf?_of_nodup h.left.nodup hid).trans (idxOf?_of_nodup h.right.nodup hid').symm

/-- What holds of lists put together holds of the lists, if these have the same lengths. -/
private theorem forall₂_of_flatten {α β : Type} {R S : α → β → Prop} {ass : List (List α)}
    {bss : List (List β)} (h : List.Forall₂ (List.Forall₂ R) ass bss)
    (hS : List.Forall₂ S ass.flatten bss.flatten) : List.Forall₂ (List.Forall₂ S) ass bss := by
  induction h with
  | nil => exact List.Forall₂.nil
  | @cons as bs ass bss has _ ih =>
    rw [List.flatten_cons, List.flatten_cons] at hS
    have hfirst := List.forall₂_take as.length hS
    have hrest := List.forall₂_drop as.length hS
    rw [List.take_left, has.length_eq, List.take_left] at hfirst
    rw [List.drop_left, has.length_eq, List.drop_left] at hrest
    exact List.Forall₂.cons hfirst (ih hrest)

/-- The same for inputs that belong to one parameter each. -/
theorem NewInputs.sameAll_withInputs {w w' : Correspondence} {tss tss' : List (List Tensor)}
    (h : NewInputs w w' tss.flatten tss'.flatten) (hsame : List.Forall₂ w'.SameAll tss tss') :
    List.Forall₂ (w'.withInputs tss.flatten tss'.flatten h.same).SameAll tss tss' :=
  forall₂_of_flatten hsame h.same_withInputs

end TensorLowering

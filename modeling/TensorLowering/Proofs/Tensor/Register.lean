import TensorLowering.Tensor.Basic

/-!
# Registers of tensors

A register holds the tensors that were made up to some moment, together with the number from which
on all numbers are new. A number stands for one tensor in it, and what a tensor is computed from
is in it as well. Some of the numbers belong to the placeholders of parameters; these are kept in
the order of the parameters.
-/

namespace TensorLowering

/-- The tensors made so far, and the number from which on numbers are new. -/
structure Register where
  next : Nat
  /-- The numbers of the placeholders of the parameters. -/
  params : List Nat
  made : Tensor → Prop
  params_lt : ∀ i ∈ params, i < next
  id_lt : ∀ t, made t → t.id < next
  id_inj : ∀ t u, made t → made u → t.id = u.id → t = u
  made_inputs : ∀ t u, made t → u ∈ t.inputs → made u

namespace Register

/-- A register without tensors. -/
def empty (next : Nat) : Register where
  next := next
  params := []
  made _ := False
  params_lt _ h := absurd h List.not_mem_nil
  id_lt _ h := h.elim
  id_inj _ _ h := h.elim
  made_inputs _ _ h := h.elim

/-- Pass over numbers that do not become numbers of tensors. -/
def skip (r : Register) (n : Nat) (h : r.next ≤ n) : Register where
  next := n
  params := r.params
  made := r.made
  params_lt i hi := Nat.lt_of_lt_of_le (r.params_lt i hi) h
  id_lt t ht := Nat.lt_of_lt_of_le (r.id_lt t ht) h
  id_inj := r.id_inj
  made_inputs := r.made_inputs

/-- Make a tensor of the next number out of tensors that were made. -/
def make (r : Register) (t : Tensor) (hid : t.id = r.next)
    (hinputs : ∀ u ∈ t.inputs, r.made u) : Register where
  next := r.next + 1
  params := r.params
  made u := r.made u ∨ u = t
  params_lt i hi := Nat.lt_succ_of_lt (r.params_lt i hi)
  id_lt u hu := by
    obtain hu | rfl := hu
    · exact Nat.lt_succ_of_lt (r.id_lt u hu)
    · exact Nat.lt_succ_of_le (Nat.le_of_eq hid)
  id_inj u v hu hv huv := by
    obtain hu | rfl := hu
    · obtain hv | rfl := hv
      · exact r.id_inj u v hu hv huv
      · have hlt := r.id_lt u hu
        omega
    · obtain hv | rfl := hv
      · have hlt := r.id_lt v hv
        omega
      · rfl
  made_inputs u v hu hv := by
    obtain hu | rfl := hu
    · exact Or.inl (r.made_inputs u v hu hv)
    · exact Or.inl (hinputs v hv)

/-- The numbers of the parameters are these from now on. -/
def withParams (r : Register) (params : List Nat) (h : ∀ i ∈ params, i < r.next) : Register :=
  { r with params := params, params_lt := h }

/-- What a register can become. -/
structure Grows (r r' : Register) : Prop where
  next : r.next ≤ r'.next
  params : r'.params = r.params
  made : ∀ t, r.made t → r'.made t

theorem Grows.refl (r : Register) : r.Grows r := ⟨Nat.le_refl _, rfl, fun _ h => h⟩

theorem Grows.trans {r r' r'' : Register} (h : r.Grows r') (h' : r'.Grows r'') : r.Grows r'' :=
  ⟨Nat.le_trans h.next h'.next, h'.params.trans h.params, fun t ht => h'.made t (h.made t ht)⟩

/-- A register grows when numbers are skipped. -/
theorem grows_skip (r : Register) (n : Nat) (h : r.next ≤ n) : r.Grows (r.skip n h) :=
  ⟨h, rfl, fun _ ht => ht⟩

/-- It grows when a tensor is made. -/
theorem grows_make (r : Register) (t : Tensor) (hid : t.id = r.next)
    (hinputs : ∀ u ∈ t.inputs, r.made u) : r.Grows (r.make t hid hinputs) :=
  ⟨Nat.le_succ _, rfl, fun _ ht => Or.inl ht⟩

/-- A new number is the number of no parameter. -/
theorem idxOf?_next (r : Register) : r.params.idxOf? r.next = none := by
  rw [List.idxOf?_eq_none_iff]
  intro h
  have hlt := r.params_lt _ h
  omega

end Register

end TensorLowering

import TensorLowering.Graph.Fingerprint

/-!
# Reading a fingerprint

`Encoding.tokens s e` is what `Encoding.encode` writes for `e` when it starts from `s`
(`encode_reversed`). The tokens of an expression are a word in prefix notation: every token says
how many expressions follow it (`Token.arity`), so the end of the word is found without knowing
the expression (`skip_tokens`). Hence what is written for two expressions can be compared from
left to right: if two texts agree that begin with the tokens of an expression each, then so do
these tokens and the rests (`tokens_append_inj`, `tokensAll_cons_inj`).

The first token tells what kind of expression was written, unless it is a reference to a node
that was visited before. The lemmas `tokens_eq_call` and so on read an expression off the tokens
of a node that is visited for the first time.
-/

namespace TensorLowering

/-- How many expressions follow a token. -/
def Token.arity : Token → Nat
  | .call _ _ n _ | .tuple n => n
  | .proj _ => 1
  | .letIn _ => 2
  | .function _ | .param _ | .returns _ | .bound _ | .free _ | .const .. | .shared _ => 0

/-- What stands behind so many expressions. -/
def Token.skip : Nat → List Token → List Token
  | 0, ts => ts
  | _ + 1, [] => []
  | n + 1, t :: ts => skip (n + t.arity) ts

@[simp] theorem Token.skip_zero (ts : List Token) : Token.skip 0 ts = ts := by
  cases ts <;> rfl

/-- A node that has a number of its own: neither a variable nor a constant. -/
def Expr.Inner : Expr → Prop
  | .var .. | .const .. => False
  | .call .. | .tuple .. | .proj .. | .letIn .. => True

namespace Encoding

/-- Begin a node that is visited for the first time. -/
abbrev enter (s : Encoding) (id : Nat) (t : Token) : Encoding := (s.visit id).emit t

mutual

/-- The tokens that are written for an expression. -/
def tokens (s : Encoding) : Expr → List Token
  | .var _ v => [s.occurrence v]
  | .const _ t data => [.const t data]
  | .call id op attrs args t =>
    match s.visited.lookup id with
    | some index => [.shared index]
    | none =>
      let first := Token.call op attrs args.length t
      first :: tokensAll (s.enter id first) args
  | .tuple id fields =>
    match s.visited.lookup id with
    | some index => [.shared index]
    | none => .tuple fields.length :: tokensAll (s.enter id (.tuple fields.length)) fields
  | .proj id e i =>
    match s.visited.lookup id with
    | some index => [.shared index]
    | none => .proj i :: tokens (s.enter id (.proj i)) e
  | .letIn id v value body =>
    match s.visited.lookup id with
    | some index => [.shared index]
    | none =>
      let s := s.enter id (.letIn v.type)
      .letIn v.type :: (tokens s value ++ tokens ((encode s value).bind v.id) body)

/-- The tokens that are written for several expressions. -/
def tokensAll (s : Encoding) : List Expr → List Token
  | [] => []
  | e :: es => tokens s e ++ tokensAll (encode s e) es

end

/-! ### Unique reading -/

/-- An occurrence is followed by nothing that belongs to it. -/
private theorem arity_occurrence (s : Encoding) (v : Var) : (s.occurrence v).arity = 0 := by
  unfold occurrence
  split <;> rfl

mutual

/-- Behind one expression stands what was written after it. -/
theorem skip_tokens (s : Encoding) (n : Nat) (rest : List Token) : (e : Expr) →
    Token.skip (n + 1) (s.tokens e ++ rest) = Token.skip n rest
  | .var _ v => by
    change Token.skip (n + (s.occurrence v).arity) rest = _
    rw [arity_occurrence]
    rfl
  | .const .. => rfl
  | .call id op attrs args t => by
    rw [tokens]
    split
    · rfl
    · exact skip_tokensAll _ n rest args
  | .tuple id fields => by
    rw [tokens]
    split
    · rfl
    · exact skip_tokensAll _ n rest fields
  | .proj id e i => by
    rw [tokens]
    split
    · rfl
    · exact skip_tokens _ n rest e
  | .letIn id v value body => by
    rw [tokens]
    split
    · rfl
    · change Token.skip (n + 1 + 1) (_ ++ _ ++ rest) = _
      rw [List.append_assoc, skip_tokens _ (n + 1) _ value, skip_tokens _ n _ body]

/-- The same for several expressions. -/
theorem skip_tokensAll (s : Encoding) (n : Nat) (rest : List Token) : (es : List Expr) →
    Token.skip (n + es.length) (s.tokensAll es ++ rest) = Token.skip n rest
  | [] => rfl
  | e :: es => by
    rw [tokensAll, List.append_assoc, List.length_cons, ← Nat.add_assoc,
      skip_tokens s (n + es.length) _ e, skip_tokensAll _ n rest es]

end

/-- The tokens of an expression are found again in front of any text. -/
theorem tokens_append_inj {s t : Encoding} {e e' : Expr} {rest rest' : List Token}
    (h : s.tokens e ++ rest = t.tokens e' ++ rest') : s.tokens e = t.tokens e' ∧ rest = rest' := by
  have hrest : rest = rest' := by
    have := congrArg (Token.skip 1) h
    rwa [skip_tokens s 0 rest e, skip_tokens t 0 rest' e', Token.skip_zero,
      Token.skip_zero] at this
  subst hrest
  exact ⟨List.append_cancel_right h, rfl⟩

/-- Tokens of several expressions are those of the first one and those of the rest. -/
theorem tokensAll_cons_inj {s t : Encoding} {e e' : Expr} {es es' : List Expr}
    (h : s.tokensAll (e :: es) = t.tokensAll (e' :: es')) :
    s.tokens e = t.tokens e' ∧ (s.encode e).tokensAll es = (t.encode e').tokensAll es' := by
  rw [tokensAll, tokensAll] at h
  exact tokens_append_inj h

/-! ### Nodes that are visited for the first time and nodes that are met again -/

section

variable {s : Encoding} {id : Nat} (h : s.visited.lookup id = none)

include h

/-- A call that was not visited is entered, and its arguments are encoded. -/
theorem encode_call (op : String) (attrs : Attrs) (args : List Expr) (t : Ty) :
    s.encode (.call id op attrs args t) =
      (s.enter id (.call op attrs args.length t)).encodeAll args := by
  simp only [encode, h]

/-- A tuple that was not visited is entered, and its fields are encoded. -/
theorem encode_tuple (fields : List Expr) :
    s.encode (.tuple id fields) = (s.enter id (.tuple fields.length)).encodeAll fields := by
  simp only [encode, h]

/-- A projection that was not visited is entered, and its tuple is encoded. -/
theorem encode_proj (e : Expr) (i : Nat) :
    s.encode (.proj id e i) = (s.enter id (.proj i)).encode e := by
  simp only [encode, h]

/-- Of a local definition that was not visited the value is encoded, then the variable is bound for
the body. -/
theorem encode_letIn (v : Var) (value body : Expr) :
    s.encode (.letIn id v value body) =
      (((s.enter id (.letIn v.type)).encode value).bind v.id).encode body := by
  simp only [encode, h]

private theorem tokens_call (op : String) (attrs : Attrs) (args : List Expr) (t : Ty) :
    s.tokens (.call id op attrs args t) = .call op attrs args.length t ::
      (s.enter id (.call op attrs args.length t)).tokensAll args := by
  simp only [tokens, h]

private theorem tokens_tuple (fields : List Expr) :
    s.tokens (.tuple id fields) =
      .tuple fields.length :: (s.enter id (.tuple fields.length)).tokensAll fields := by
  simp only [tokens, h]

private theorem tokens_proj (e : Expr) (i : Nat) :
    s.tokens (.proj id e i) = .proj i :: (s.enter id (.proj i)).tokens e := by
  simp only [tokens, h]

private theorem tokens_letIn (v : Var) (value body : Expr) :
    s.tokens (.letIn id v value body) = .letIn v.type ::
      ((s.enter id (.letIn v.type)).tokens value ++
        (((s.enter id (.letIn v.type)).encode value).bind v.id).tokens body) := by
  simp only [tokens, h]

end

/-- An inner node that was visited is only referred to. -/
theorem encode_of_visited {s : Encoding} {e : Expr} {n : Nat} (he : e.Inner)
    (h : s.visited.lookup e.id = some n) : s.encode e = s.emit (.shared n) := by
  cases e with
  | var | const => exact he.elim
  | call | tuple | proj | letIn =>
    simp only [Expr.id] at h
    simp only [encode, h]

/-- It has one token. -/
theorem tokens_of_visited {s : Encoding} {e : Expr} {n : Nat} (he : e.Inner)
    (h : s.visited.lookup e.id = some n) : s.tokens e = [.shared n] := by
  cases e with
  | var | const => exact he.elim
  | call | tuple | proj | letIn =>
    simp only [Expr.id] at h
    simp only [tokens, h]

mutual

/-- What is written for an expression stands in front of what was written before. -/
theorem encode_reversed (s : Encoding) : (e : Expr) →
    (s.encode e).reversed = (s.tokens e).reverse ++ s.reversed
  | .var .. | .const .. => rfl
  | .call id op attrs args t => by
    cases hid : s.visited.lookup id with
    | some index => simp only [encode, tokens, hid]; rfl
    | none =>
      rw [encode_call hid, tokens_call hid, encodeAll_reversed _ args, List.reverse_cons,
        List.append_assoc]
      rfl
  | .tuple id fields => by
    cases hid : s.visited.lookup id with
    | some index => simp only [encode, tokens, hid]; rfl
    | none =>
      rw [encode_tuple hid, tokens_tuple hid, encodeAll_reversed _ fields, List.reverse_cons,
        List.append_assoc]
      rfl
  | .proj id e i => by
    cases hid : s.visited.lookup id with
    | some index => simp only [encode, tokens, hid]; rfl
    | none =>
      rw [encode_proj hid, tokens_proj hid, encode_reversed _ e, List.reverse_cons,
        List.append_assoc]
      rfl
  | .letIn id v value body => by
    cases hid : s.visited.lookup id with
    | some index => simp only [encode, tokens, hid]; rfl
    | none =>
      rw [encode_letIn hid, tokens_letIn hid, encode_reversed _ body, List.reverse_cons,
        List.reverse_append, List.append_assoc, List.append_assoc]
      change _ ++ (encode _ value).reversed = _
      rw [encode_reversed _ value]
      rfl

/-- The same for several expressions. -/
theorem encodeAll_reversed (s : Encoding) : (es : List Expr) →
    (s.encodeAll es).reversed = (s.tokensAll es).reverse ++ s.reversed
  | [] => rfl
  | e :: es => by
    rw [encodeAll, encodeAll_reversed _ es, encode_reversed s e, tokensAll, List.reverse_append,
      List.append_assoc]

end

/-! ### Reading a node that is visited for the first time -/

variable {s t : Encoding} {id : Nat} {e' : Expr}

/-- What has the tokens of a call is a call of the same operator with as many arguments. -/
theorem tokens_eq_call {op : String} {attrs : Attrs} {args : List Expr} {ty : Ty}
    (hs : s.visited.lookup id = none)
    (h : s.tokens (.call id op attrs args ty) = t.tokens e') :
    ∃ id' args', e' = .call id' op attrs args' ty ∧ t.visited.lookup id' = none ∧
      args.length = args'.length ∧
      (s.enter id (.call op attrs args.length ty)).tokensAll args =
        (t.enter id' (.call op attrs args'.length ty)).tokensAll args' := by
  rw [tokens_call hs] at h
  cases e' with
  | call id' op' attrs' args' ty' =>
    cases ht : t.visited.lookup id' with
    | some index => simp [tokens, ht] at h
    | none =>
      simp only [tokens, ht, List.cons.injEq, Token.call.injEq] at h
      obtain ⟨⟨rfl, rfl, hlen, rfl⟩, h⟩ := h
      exact ⟨id', args', rfl, ht, hlen, h⟩
  | var _ v => simp only [tokens, occurrence] at h; split at h <;> simp at h
  | const => simp [tokens] at h
  | tuple => simp only [tokens] at h; split at h <;> simp at h
  | proj => simp only [tokens] at h; split at h <;> simp at h
  | letIn => simp only [tokens] at h; split at h <;> simp at h

/-- What has the tokens of a tuple is a tuple of as many fields. -/
theorem tokens_eq_tuple {fields : List Expr} (hs : s.visited.lookup id = none)
    (h : s.tokens (.tuple id fields) = t.tokens e') :
    ∃ id' fields', e' = .tuple id' fields' ∧ t.visited.lookup id' = none ∧
      fields.length = fields'.length ∧
      (s.enter id (.tuple fields.length)).tokensAll fields =
        (t.enter id' (.tuple fields'.length)).tokensAll fields' := by
  rw [tokens_tuple hs] at h
  cases e' with
  | tuple id' fields' =>
    cases ht : t.visited.lookup id' with
    | some index => simp [tokens, ht] at h
    | none =>
      simp only [tokens, ht, List.cons.injEq, Token.tuple.injEq] at h
      exact ⟨id', fields', rfl, ht, h.1, h.2⟩
  | var _ v => simp only [tokens, occurrence] at h; split at h <;> simp at h
  | const => simp [tokens] at h
  | call => simp only [tokens] at h; split at h <;> simp at h
  | proj => simp only [tokens] at h; split at h <;> simp at h
  | letIn => simp only [tokens] at h; split at h <;> simp at h

/-- What has the tokens of a projection is a projection to the same field. -/
theorem tokens_eq_proj {e : Expr} {i : Nat} (hs : s.visited.lookup id = none)
    (h : s.tokens (.proj id e i) = t.tokens e') :
    ∃ id' d, e' = .proj id' d i ∧ t.visited.lookup id' = none ∧
      (s.enter id (.proj i)).tokens e = (t.enter id' (.proj i)).tokens d := by
  rw [tokens_proj hs] at h
  cases e' with
  | proj id' d j =>
    cases ht : t.visited.lookup id' with
    | some index => simp [tokens, ht] at h
    | none =>
      simp only [tokens, ht, List.cons.injEq, Token.proj.injEq] at h
      obtain ⟨rfl, h⟩ := h
      exact ⟨id', d, rfl, ht, h⟩
  | var _ v => simp only [tokens, occurrence] at h; split at h <;> simp at h
  | const => simp [tokens] at h
  | call => simp only [tokens] at h; split at h <;> simp at h
  | tuple => simp only [tokens] at h; split at h <;> simp at h
  | letIn => simp only [tokens] at h; split at h <;> simp at h

/-- What has the tokens of a local definition is one of a variable of the same type. -/
theorem tokens_eq_letIn {v : Var} {value body : Expr} (hs : s.visited.lookup id = none)
    (h : s.tokens (.letIn id v value body) = t.tokens e') :
    ∃ id' w value' body', e' = .letIn id' w value' body' ∧ t.visited.lookup id' = none ∧
      v.type = w.type ∧
      (s.enter id (.letIn v.type)).tokens value = (t.enter id' (.letIn w.type)).tokens value' ∧
      (((s.enter id (.letIn v.type)).encode value).bind v.id).tokens body =
        (((t.enter id' (.letIn w.type)).encode value').bind w.id).tokens body' := by
  rw [tokens_letIn hs] at h
  cases e' with
  | letIn id' w value' body' =>
    cases ht : t.visited.lookup id' with
    | some index => simp [tokens, ht] at h
    | none =>
      simp only [tokens, ht, List.cons.injEq, Token.letIn.injEq] at h
      exact ⟨id', w, value', body', rfl, ht, h.1, tokens_append_inj h.2⟩
  | var _ v => simp only [tokens, occurrence] at h; split at h <;> simp at h
  | const => simp [tokens] at h
  | call => simp only [tokens] at h; split at h <;> simp at h
  | tuple => simp only [tokens] at h; split at h <;> simp at h
  | proj => simp only [tokens] at h; split at h <;> simp at h

/-! ### Reading the other expressions -/

/-- What has the token of an occurrence of a variable is one. -/
theorem tokens_eq_occurrence {v : Var} (h : s.tokens (.var id v) = t.tokens e') :
    ∃ id' w, e' = .var id' w ∧ s.occurrence v = t.occurrence w := by
  rw [tokens] at h
  cases e' with
  | var id' w => exact ⟨id', w, rfl, List.cons.inj h |>.1⟩
  | const => simp only [tokens, occurrence] at h; split at h <;> simp at h
  | call => simp only [tokens, occurrence] at h; split at h <;> split at h <;> simp at h
  | tuple => simp only [tokens, occurrence] at h; split at h <;> split at h <;> simp at h
  | proj => simp only [tokens, occurrence] at h; split at h <;> split at h <;> simp at h
  | letIn => simp only [tokens, occurrence] at h; split at h <;> split at h <;> simp at h

/-- What has the token of a constant is the same constant. -/
theorem tokens_eq_const {ty : TensorType} {data : List UInt8}
    (h : s.tokens (.const id ty data) = t.tokens e') : ∃ id', e' = .const id' ty data := by
  rw [tokens] at h
  cases e' with
  | const id' ty' data' =>
    simp only [tokens, List.cons.injEq, Token.const.injEq, and_true] at h
    obtain ⟨rfl, rfl⟩ := h
    exact ⟨id', rfl⟩
  | var _ w => simp only [tokens, occurrence] at h; split at h <;> simp at h
  | call => simp only [tokens] at h; split at h <;> simp at h
  | tuple => simp only [tokens] at h; split at h <;> simp at h
  | proj => simp only [tokens] at h; split at h <;> simp at h
  | letIn => simp only [tokens] at h; split at h <;> simp at h

/-- What has the token of a shared node is an inner node that was visited. -/
theorem tokens_eq_shared {n : Nat} (h : [.shared n] = t.tokens e') :
    e'.Inner ∧ t.visited.lookup e'.id = some n := by
  cases e' with
  | var _ w => simp only [tokens, occurrence] at h; split at h <;> simp at h
  | const => simp [tokens] at h
  | call id' | tuple id' | proj id' | letIn id' =>
    refine ⟨trivial, ?_⟩
    cases ht : t.visited.lookup id' with
    | none => simp [tokens, ht] at h
    | some m =>
      simp only [tokens, ht, List.cons.injEq, Token.shared.injEq, and_true] at h
      rw [h]
      exact ht

end Encoding

end TensorLowering

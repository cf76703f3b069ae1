import TensorLowering.Graph.Listing
import TensorLowering.Proofs.Fingerprint.Tables
import TensorLowering.Proofs.Graph.EvalOrder

/-!
# Listings define before they use

The listing of a function is a sequence of definitions: `Function.listing_defines` says that it has
one numbered line for each call, tuple and projection of the body, that the numbers count these
lines, and that every operand which is the result of such a node is the number of an earlier line.

A node may be shared, and a local definition that is shared is listed again wherever it stands. So
the invariant is about the nodes that have a line (`Listing.Records`): they are the first ones of
their numbers in the order of evaluation, they are closed under parts, and each knows its number. To
list an expression adds the nodes of it that are new (`Listing.adds_add`).
-/

namespace TensorLowering

/-! ### Nodes with a line of their own -/

/-- The nodes whose results are numbered. -/
def Expr.isNumbered : Expr → Bool
  | .call .. | .tuple .. | .proj .. => true
  | .var .. | .const .. | .letIn .. => false

/-- The node that is finished, if its result is numbered. -/
def EvalStep.result? : EvalStep → Option Expr
  | .bind .. => none
  | .finish e => if e.isNumbered then some e else none

/-- The nodes of an expression whose results are numbered, in the order of evaluation. -/
def Expr.results (e : Expr) : List Expr := e.evalSteps.filterMap EvalStep.result?

/-- The same for a function: every node where it is met for the first time. -/
def Function.resultNodes (f : Function) : List Expr := noteAllBy Expr.id [] f.body.results

namespace Expr

variable {d e : Expr}

private theorem mem_results_iff : d ∈ e.results ↔ d.Within e ∧ d.isNumbered := by
  rw [results, List.mem_filterMap, ← finish_mem_evalSteps_iff]
  constructor
  · rintro ⟨a, ha, hd⟩
    cases a with
    | bind => cases hd
    | finish c =>
      rw [EvalStep.result?, Option.ite_none_right_eq_some] at hd
      obtain ⟨hnumbered, heq⟩ := hd
      obtain rfl := Option.some.inj heq
      exact ⟨ha, hnumbered⟩
  · rintro ⟨hmem, hnumbered⟩
    exact ⟨_, hmem, if_pos hnumbered⟩

private theorem filterMap_evalStepsAll (es : List Expr) :
    (evalStepsAll es).filterMap EvalStep.result? = es.flatMap results := by
  rw [evalStepsAll_eq_flatMap, List.filterMap_flatMap]
  rfl

/-- The result of a node comes after those of its parts. -/
theorem results_of_isNumbered (h : e.isNumbered) : e.results = e.parts.flatMap results ++ [e] := by
  have hlet : ∀ id v value body, e ≠ .letIn id v value body := by
    rintro id v value body rfl
    cases h
  have hlast : [EvalStep.finish e].filterMap EvalStep.result? = [e] := by
    rw [List.filterMap_cons, EvalStep.result?, if_pos h]
    rfl
  rw [results, evalSteps_eq hlet, List.filterMap_append, filterMap_evalStepsAll, hlast]

/-- A local definition has no result of its own. -/
theorem results_letIn (id : Nat) (v : Var) (value body : Expr) :
    (letIn id v value body).results = value.results ++ body.results := by
  rw [results, evalSteps, List.filterMap_append, List.filterMap_cons, List.filterMap_append]
  exact congrArg (value.results ++ ·) (List.append_nil _)

/-- In a graph, a new node is none of those among its parts. -/
theorem id_notMem_parts {k : Catalogue} {done : List Expr} (he : e.In k)
    (hmiss : e.id ∉ done.map Expr.id) :
    e.id ∉ (noteAllBy Expr.id done (e.parts.flatMap results)).map Expr.id := by
  intro hmem
  obtain ⟨d, hd, hid⟩ := List.mem_map.mp hmem
  obtain hd | hd := mem_noteAllBy hd
  · exact hmiss (hid ▸ List.mem_map_of_mem hd)
  · -- the node would be a part of itself
    obtain ⟨a, ha, hd⟩ := List.mem_flatMap.mp hd
    have hwithin := (mem_results_iff.mp hd).1
    have hle := hwithin.sizeOf_le
    have hlt := sizeOf_lt_of_mem_parts ha
    exact (hwithin.trans (within_of_mem_parts ha)).id_ne he (by omega) hid

end Expr

/-! ### Lines that fit -/

/-- The number that a line defines. -/
def Line.number? : Line → Option Nat
  | .numbered n .. => some n
  | .definition .. => none

/-- The numbers that some lines define. -/
def numbersOf (lines : List Line) : List Nat := lines.filterMap Line.number?

/-- How an expression is referred to behind some lines. Its result is the number of one of these
lines; the result of a local definition is that of its body. -/
inductive Expr.Shown (nodes : List Expr) (before : List Line) : Expr → Operand → Prop where
  | var (id : Nat) (v : Var) : Shown nodes before (.var id v) (.variable v.name)
  | const (id : Nat) (t : TensorType) (data : List UInt8) :
      Shown nodes before (.const id t data) (.constant t)
  | letIn (id : Nat) (v : Var) (value : Expr) {body : Expr} {o : Operand} :
      Shown nodes before body o → Shown nodes before (.letIn id v value body) o
  | result {e : Expr} {n : Nat} : nodes[n]? = some e → n ∈ numbersOf before →
      Shown nodes before e (.result n)

/-- What a line says behind some lines: how the node of its number is made, or what a local
definition of the function stands for. -/
inductive Line.Fits (f : Function) (nodes : List Expr) (before : List Line) : Line → Prop where
  | call {n id : Nat} {op : String} {attrs : Attrs} {args : List Expr} {t : Ty}
      {operands : List Operand} : nodes[n]? = some (.call id op attrs args t) →
      List.Forall₂ (Expr.Shown nodes before) args operands →
      Fits f nodes before (.numbered n (.call op operands attrs) t)
  | tuple {n id : Nat} {fields : List Expr} {operands : List Operand} :
      nodes[n]? = some (.tuple id fields) →
      List.Forall₂ (Expr.Shown nodes before) fields operands →
      Fits f nodes before (.numbered n (.tuple operands) (Expr.tuple id fields).type)
  | proj {n id i : Nat} {e : Expr} {o : Operand} : nodes[n]? = some (.proj id e i) →
      e.Shown nodes before o →
      Fits f nodes before (.numbered n (.proj o i) (Expr.proj id e i).type)
  | definition {id : Nat} {v : Var} {value body : Expr} {o : Operand} :
      (Expr.letIn id v value body).Within f.body → value.Shown nodes before o →
      Fits f nodes before (.definition v.name v.type o)

section

variable {f : Function} {nodes nodes' : List Expr} {before before' : List Line} {line : Line}
  {e : Expr} {es : List Expr} {o : Operand} {os : List Operand}

private theorem prefix_getElem? {α : Type} {as bs : List α} (h : as <+: bs) {n : Nat} {a : α}
    (ha : as[n]? = some a) : bs[n]? = some a := by
  obtain ⟨hlt, rfl⟩ := List.getElem?_eq_some_iff.mp ha
  exact List.prefix_iff_getElem?.mp h n hlt

/-- An operand keeps its meaning when lines are added. -/
theorem Expr.Shown.mono (hnodes : nodes <+: nodes') (hbefore : before <+: before')
    (h : e.Shown nodes before o) : e.Shown nodes' before' o := by
  induction h with
  | var id v => exact .var id v
  | const id t data => exact .const id t data
  | letIn id v value _ ih => exact .letIn id v value ih
  | result hnode hn =>
    exact .result (prefix_getElem? hnodes hnode) ((hbefore.filterMap _).subset hn)

/-- A line fits also when more nodes are numbered. -/
theorem Line.Fits.mono (hnodes : nodes <+: nodes') (h : line.Fits f nodes before) :
    line.Fits f nodes' before := by
  have hshown {e : Expr} {o : Operand} (h : e.Shown nodes before o) : e.Shown nodes' before o :=
    h.mono hnodes (List.prefix_refl before)
  cases h with
  | call hnode hargs => exact .call (prefix_getElem? hnodes hnode) (hargs.imp fun _ _ => hshown)
  | tuple hnode hfields =>
    exact .tuple (prefix_getElem? hnodes hnode) (hfields.imp fun _ _ => hshown)
  | proj hnode he => exact .proj (prefix_getElem? hnodes hnode) (hshown he)
  | definition hlet hvalue => exact .definition hlet (hshown hvalue)

end

/-! ### The nodes that have a line -/

/-- What holds of the lines that lead to an element holds of a list with one more element. -/
private theorem forall_split_append {α : Type} {P : List α → α → Prop} {as : List α} {b : α}
    (h : ∀ before a after, as = before ++ a :: after → P before a) (hb : P as b) :
    ∀ before a after, as ++ [b] = before ++ a :: after → P before a := by
  intro before a after heq
  obtain rfl | ⟨after, c, rfl⟩ := List.eq_nil_or_concat after
  · obtain ⟨rfl, hlast⟩ := List.append_inj' heq rfl
    obtain rfl := List.singleton_inj.mp hlast
    exact hb
  · rw [List.concat_eq_append, ← List.cons_append, ← List.append_assoc] at heq
    exact h before a after (List.append_inj' heq rfl).1

/-- A table of positions in a list without repetition, and the list with one more element. -/
private theorem lookup_snoc_iff {ids : List Nat} {table : List (Nat × Nat)}
    (h : ∀ i n, table.lookup i = some n ↔ ids[n]? = some i) {j : Nat} (hj : j ∉ ids) (i n : Nat) :
    ((j, ids.length) :: table).lookup i = some n ↔ (ids ++ [j])[n]? = some i := by
  rw [lookup_cons_ite, List.getElem?_append, List.getElem?_singleton]
  have hold : ids[n]? ≠ some j := fun hn => hj (List.mem_of_getElem? hn)
  split
  · next hi =>
    subst hi
    split
    · next hlt =>
      simp only [hold, iff_false, Option.some_inj]
      omega
    · next hle =>
      simp only [Option.some_inj, Option.ite_none_right_eq_some, and_true]
      omega
  · next hi =>
    rw [h i n]
    split
    · rfl
    · next hle =>
      have hnone : ids[n]? = none := List.getElem?_eq_none (by omega)
      simp only [hnone, Option.ite_none_right_eq_some, Option.some_inj, Ne.symm hi, and_false,
        reduceCtorEq]

/-- A listing has lines for some nodes of a function: they are numbered in their order, with a node
stand the nodes among its parts, and the lines fit. -/
structure Listing.Records (f : Function) (done : List Expr) (s : Listing) : Prop where
  lookup_iff : ∀ i n, s.numbers.lookup i = some n ↔ (done.map Expr.id)[n]? = some i
  count : s.count = done.length
  numbers : numbersOf s.lines = List.range done.length
  fits : ∀ before line after, s.lines = before ++ line :: after → line.Fits f done before
  within : ∀ e ∈ done, e.Within f.body
  closed : ∀ e ∈ done, ∀ d ∈ e.results, d.id ∈ done.map Expr.id

namespace Listing

variable {f : Function} {done : List Expr} {s : Listing} {e : Expr} {step : Step} {t : Ty}

/-- The empty listing records nothing. -/
theorem records_empty (f : Function) : empty.Records f [] where
  lookup_iff i n := by simp [empty]
  count := rfl
  numbers := rfl
  fits before line after h := by simp [empty, lines] at h
  within e h := absurd h List.not_mem_nil
  closed e h := absurd h List.not_mem_nil

/-- A numbered result has one line. -/
theorem lines_number (s : Listing) (id : Nat) (step : Step) (t : Ty) :
    (s.number id step t).2.lines = s.lines ++ [.numbered s.count step t] := by
  simp [number, lines]

/-- A local definition has one line. -/
theorem lines_define (s : Listing) (name : String) (t : Ty) (o : Operand) :
    (s.define name t o).lines = s.lines ++ [.definition name t o] := by
  simp [define, lines]

/-- A line for a new node. -/
private theorem Records.number (h : s.Records f done) (he : e.Within f.body)
    (hid : e.id ∉ done.map Expr.id) (hclosed : ∀ d ∈ e.results, d.id ∈ (done ++ [e]).map Expr.id)
    (hfits : (Line.numbered s.count step t).Fits f (done ++ [e]) s.lines) :
    (s.number e.id step t).2.Records f (done ++ [e]) where
  lookup_iff i n := by
    have hlength : s.count = (done.map Expr.id).length := by rw [h.count, List.length_map]
    rw [List.map_append]
    change ((e.id, s.count) :: s.numbers).lookup i = some n ↔ _
    rw [hlength]
    exact lookup_snoc_iff h.lookup_iff hid i n
  count := by rw [List.length_append, ← h.count]; rfl
  numbers := by
    rw [lines_number, numbersOf, List.filterMap_append, List.length_append, List.length_singleton,
      List.range_succ, ← h.numbers, ← h.count]
    rfl
  fits := by
    rw [lines_number]
    refine forall_split_append (fun before line after hsplit => ?_) hfits
    exact (h.fits before line after hsplit).mono (List.prefix_append _ _)
  within d hd := by
    obtain hd | hd := List.mem_append.mp hd
    · exact h.within d hd
    · exact List.mem_singleton.mp hd ▸ he
  closed d hd c hc := by
    obtain hd | hd := List.mem_append.mp hd
    · rw [List.map_append]
      exact List.mem_append_left _ (h.closed d hd c hc)
    · obtain rfl := List.mem_singleton.mp hd
      exact hclosed c hc

/-- A line for a local definition. -/
theorem Records.define (h : s.Records f done) {name : String} {o : Operand}
    (hfits : (Line.definition name t o).Fits f done s.lines) :
    (s.define name t o).Records f done where
  lookup_iff := h.lookup_iff
  count := h.count
  numbers := by
    rw [lines_define, numbersOf, List.filterMap_append, ← h.numbers]
    exact List.append_nil _
  fits := by
    rw [lines_define]
    exact forall_split_append h.fits hfits
  within := h.within
  closed := h.closed

/-! ### Listing an expression -/

/-- What a listing has become when expressions were added: the nodes of them that are new have lines
behind the old ones. -/
structure Grows (f : Function) (done : List Expr) (s : Listing) (results : List Expr)
    (s' : Listing) : Prop where
  records : s'.Records f (noteAllBy Expr.id done results)
  lines : s.lines <+: s'.lines

/-- A listing that grows twice has grown by both. -/
theorem Grows.append {s₁ s₂ : Listing} {results results' : List Expr}
    (h : Grows f done s results s₁) (h' : Grows f (noteAllBy Expr.id done results) s₁ results' s₂) :
    Grows f done s (results ++ results') s₂ where
  records := by
    rw [noteAllBy_append]
    exact h'.records
  lines := h.lines.trans h'.lines

/-- A listing has become another one when expressions were added, and these are referred to. -/
def Adds (f : Function) (done : List Expr) (s : Listing) (e : Expr) (r : Operand × Listing) :
    Prop :=
  Grows f done s e.results r.2 ∧ e.Shown (noteAllBy Expr.id done e.results) r.2.lines r.1

/-- A node that has a line is referred to by its number, and nothing is added. -/
private theorem Records.adds_of_lookup {k : Catalogue} (h : s.Records f done) (hk : f.body.In k)
    (he : e.Within f.body) {n : Nat} (hn : s.numbers.lookup e.id = some n) :
    Adds f done s e (s.add e) := by
  have hadd : s.add e = (.result n, s) := by rw [add.eq_def, hn]
  have hid := (h.lookup_iff e.id n).mp hn
  rw [List.getElem?_map, Option.map_eq_some_iff] at hid
  obtain ⟨d, hd, hid⟩ := hid
  have hmem := List.mem_of_getElem? hd
  obtain rfl := Expr.In.eq_of_id_eq ((h.within d hmem).inCatalogue hk) (he.inCatalogue hk) hid
  have hnote : noteAllBy Expr.id done d.results = done := noteAllBy_of_mem (h.closed d hmem)
  have hlisted : n ∈ numbersOf s.lines := by
    rw [h.numbers, List.mem_range]
    exact (List.getElem?_eq_some_iff.mp hd).1
  rw [hadd]
  exact ⟨⟨hnote.symm ▸ h, List.prefix_refl _⟩, hnote.symm ▸ .result hd hlisted⟩

/-- A node without a number was not recorded. -/
theorem Records.id_notMem (h : s.Records f done) (hnone : s.numbers.lookup e.id = none) :
    e.id ∉ done.map Expr.id := by
  intro hmem
  obtain ⟨n, hn⟩ := List.getElem?_of_mem hmem
  rw [← h.lookup_iff, hnone] at hn
  cases hn

/-- The line for a node behind those of its parts. -/
private theorem Grows.adds {s₁ : Listing} {k : Catalogue}
    (h : Grows f done s (e.parts.flatMap Expr.results) s₁) (hk : f.body.In k)
    (he : e.Within f.body) (hnumbered : e.isNumbered) (hmiss : e.id ∉ done.map Expr.id)
    (hfits : (noteAllBy Expr.id done (e.parts.flatMap Expr.results) ++ [e])[s₁.count]? = some e →
      (Line.numbered s₁.count step t).Fits f
        (noteAllBy Expr.id done (e.parts.flatMap Expr.results) ++ [e]) s₁.lines) :
    Adds f done s e (s₁.number e.id step t) := by
  have hresults := Expr.results_of_isNumbered hnumbered
  have hid := Expr.id_notMem_parts (he.inCatalogue hk) hmiss
  generalize e.parts.flatMap Expr.results = parts at *
  have hnote : noteAllBy Expr.id done e.results = noteAllBy Expr.id done parts ++ [e] := by
    rw [hresults, noteAllBy_append]
    exact if_neg hid
  have hclosed : ∀ d ∈ e.results, d.id ∈ (noteAllBy Expr.id done parts ++ [e]).map Expr.id := by
    intro d hd
    rw [← hnote]
    exact key_mem_noteAllBy hd done
  have hnode : (noteAllBy Expr.id done parts ++ [e])[s₁.count]? = some e := by
    rw [h.records.count]
    exact List.getElem?_concat_length
  have hrecords := h.records.number he hid hclosed (hfits hnode)
  have hlines : s₁.lines <+: (s₁.number e.id step t).2.lines := by
    rw [lines_number]
    exact List.prefix_append _ _
  refine ⟨⟨hnote ▸ hrecords, h.lines.trans hlines⟩, .result (hnote ▸ hnode) ?_⟩
  rw [hrecords.numbers, List.mem_range, h.records.count, List.length_append]
  exact Nat.lt_succ_self _

mutual

/-- To list an expression adds lines for its nodes that are new. -/
theorem adds_add {k : Catalogue} (hk : f.body.In k) : (e : Expr) → e.Within f.body →
    {s : Listing} → {done : List Expr} → s.Records f done → Adds f done s e (s.add e)
  | .var id v, he, s, done, h => by
    cases hn : s.numbers.lookup (Expr.var id v).id with
    | some n => exact h.adds_of_lookup hk he hn
    | none =>
      rw [add, hn]
      exact ⟨⟨h, List.prefix_refl _⟩, .var id v⟩
  | .const id t data, he, s, done, h => by
    cases hn : s.numbers.lookup (Expr.const id t data).id with
    | some n => exact h.adds_of_lookup hk he hn
    | none =>
      rw [add, hn]
      exact ⟨⟨h, List.prefix_refl _⟩, .const id t data⟩
  | .call id op attrs args t, he, s, done, h => by
    cases hn : s.numbers.lookup (Expr.call id op attrs args t).id with
    | some n => exact h.adds_of_lookup hk he hn
    | none =>
      have hwithin : ∀ a ∈ args, a.Within f.body :=
        fun a ha => Expr.Within.trans (.call id op attrs t ha (.refl a)) he
      obtain ⟨hgrows, hshown⟩ := adds_addAll hk args hwithin h
      rw [add, hn]
      refine hgrows.adds hk he rfl (h.id_notMem hn) fun hnode => .call hnode ?_
      exact hshown.imp fun _ _ h => h.mono (List.prefix_append _ _) (List.prefix_refl _)
  | .tuple id fields, he, s, done, h => by
    cases hn : s.numbers.lookup (Expr.tuple id fields).id with
    | some n => exact h.adds_of_lookup hk he hn
    | none =>
      have hwithin : ∀ a ∈ fields, a.Within f.body :=
        fun a ha => Expr.Within.trans (.tuple id ha (.refl a)) he
      obtain ⟨hgrows, hshown⟩ := adds_addAll hk fields hwithin h
      rw [add, hn]
      refine hgrows.adds hk he rfl (h.id_notMem hn) fun hnode => .tuple hnode ?_
      exact hshown.imp fun _ _ h => h.mono (List.prefix_append _ _) (List.prefix_refl _)
  | .proj id e i, he, s, done, h => by
    cases hn : s.numbers.lookup (Expr.proj id e i).id with
    | some n => exact h.adds_of_lookup hk he hn
    | none =>
      obtain ⟨hgrows, hshown⟩ := adds_add hk e (Expr.Within.trans (.proj id i (.refl e)) he) h
      rw [add, hn]
      have hparts : (Expr.proj id e i).parts.flatMap Expr.results = e.results :=
        List.flatMap_singleton ..
      rw [← hparts] at hgrows hshown
      refine hgrows.adds hk he rfl (h.id_notMem hn) fun hnode => .proj hnode ?_
      exact hshown.mono (List.prefix_append _ _) (List.prefix_refl _)
  | .letIn id v value body, he, s, done, h => by
    cases hn : s.numbers.lookup (Expr.letIn id v value body).id with
    | some n => exact h.adds_of_lookup hk he hn
    | none =>
      obtain ⟨hgrows, hshown⟩ :=
        adds_add hk value (Expr.Within.trans (.letValue id v body (.refl value)) he) h
      have hdefine := hgrows.records.define (.definition he hshown)
      obtain ⟨hgrows', hshown'⟩ :=
        adds_add hk body (Expr.Within.trans (.letBody id v value (.refl body)) he) hdefine
      have hlines : (s.add value).2.lines <+:
          ((s.add value).2.define v.name v.type (s.add value).1).lines := by
        rw [lines_define]
        exact List.prefix_append _ _
      rw [add, hn, Adds, Expr.results_letIn, noteAllBy_append]
      exact ⟨hgrows.append ⟨hgrows'.records, hlines.trans hgrows'.lines⟩, .letIn id v value hshown'⟩

/-- The same for several expressions. -/
theorem adds_addAll {k : Catalogue} (hk : f.body.In k) : (es : List Expr) →
    (∀ e ∈ es, e.Within f.body) → {s : Listing} → {done : List Expr} → s.Records f done →
    Grows f done s (es.flatMap Expr.results) (s.addAll es).2 ∧
      List.Forall₂ (Expr.Shown (noteAllBy Expr.id done (es.flatMap Expr.results))
        (s.addAll es).2.lines) es (s.addAll es).1
  | [], _, s, done, h => ⟨⟨h, List.prefix_refl _⟩, .nil⟩
  | e :: es, hes, s, done, h => by
    obtain ⟨hgrows, hshown⟩ := adds_add hk e (hes e List.mem_cons_self) h
    obtain ⟨hgrows', hshown'⟩ :=
      adds_addAll hk es (fun d hd => hes d (List.mem_cons_of_mem _ hd)) hgrows.records
    rw [List.flatMap_cons, addAll, noteAllBy_append]
    refine ⟨hgrows.append hgrows', .cons ?_ hshown'⟩
    exact hshown.mono (prefix_noteAllBy _ _ _) hgrows'.lines

end

end Listing

/-! ### Listings of functions -/

namespace Function

variable {f : Function}

/-- No node is listed twice. -/
private theorem nodup_resultNodes (f : Function) : (f.resultNodes.map Expr.id).Nodup :=
  nodup_noteAllBy_nil Expr.id f.body.results

/-- The nodes that get numbers are those of the body that are calls, tuples or projections. -/
theorem mem_resultNodes_iff (hf : f.Coherent) {e : Expr} :
    e ∈ f.resultNodes ↔ e.Within f.body ∧ e.isNumbered := by
  obtain ⟨k, hk⟩ := hf
  have hin {d : Expr} (hd : d ∈ f.body.results) : d.In k :=
    (Expr.mem_results_iff.mp hd).1.inCatalogue hk
  refine (mem_noteAllBy_nil_iff fun a ha b hb hid => ?_).trans Expr.mem_results_iff
  exact Expr.In.eq_of_id_eq (hin ha) (hin hb) hid

/-- A head, some lines and a result as one text. -/
def textOf (f : Function) (lines : List Line) (result : Operand) : String :=
  "fn (" ++ Text.commaSeparated (f.params.map fun v => "%" ++ v.name ++ ": " ++ v.type.text)
    ++ ") -> " ++ f.returnType.text ++ " \x7b\n"
    ++ String.join (lines.map fun line => "  " ++ line.text ++ "\n")
    ++ "  " ++ result.text ++ "\n\x7d\n"

/-- The text of a function is that of its lines and of its result. -/
theorem text_eq (f : Function) : f.text = f.textOf f.listing.2.lines f.listing.1 := by
  have hjoin (lines : List Line) (head : String) :
      head ++ String.join (lines.map fun line => "  " ++ line.text ++ "\n") =
        lines.foldl (fun acc line => acc ++ "  " ++ line.text ++ "\n") head := by
    induction lines generalizing head with
    | nil => exact String.append_empty
    | cons line lines ih =>
      rw [List.foldl_cons, ← ih, List.map_cons, String.join_cons]
      simp only [String.append_assoc]
  rw [textOf, hjoin]
  rfl

/-- **A listing defines before it uses.** It has one numbered line for each call, tuple and
projection of the body, and the lines are numbered in their order. Behind the lines before it each
line fits: it says how the node of its number is made, where the result of such a node is referred
to by the number of one of the lines before. The result of the function is referred to in the same
way. The text shows the lines and the result. -/
theorem listing_defines (hf : f.Coherent) :
    ((f.resultNodes.map Expr.id).Nodup ∧
      ∀ e, e ∈ f.resultNodes ↔ e.Within f.body ∧ e.isNumbered) ∧
    numbersOf f.listing.2.lines = List.range f.resultNodes.length ∧
    (∀ before line after, f.listing.2.lines = before ++ line :: after →
      line.Fits f f.resultNodes before) ∧
    f.body.Shown f.resultNodes f.listing.2.lines f.listing.1 ∧
    f.text = f.textOf f.listing.2.lines f.listing.1 := by
  obtain ⟨k, hk⟩ := hf
  obtain ⟨⟨hrecords, -⟩, hshown⟩ :=
    Listing.adds_add hk f.body (.refl _) (Listing.records_empty f)
  exact ⟨⟨nodup_resultNodes f, fun e => mem_resultNodes_iff ⟨k, hk⟩⟩, hrecords.numbers,
    hrecords.fits, hshown, text_eq f⟩

/-! ### An example -/

/-- A local definition that is used twice: its line stands twice in the listing, that of its value
only once. -/
def sharedDefinition : Function :=
  let t : Ty := .tensor ⟨[.imm 4 .int64], .float 32⟩
  let x : Var := ⟨0, "x", t⟩
  let y : Var := ⟨1, "y", t⟩
  let scope : Expr := .letIn 2 y (.call 1 "nn.relu" .empty [.var 0 x] t) (.var 3 y)
  .ofBody [x] (.call 4 "add" .empty [scope, scope] t)

/-- The lines of the example: the sum refers to the variable, which was defined before. -/
theorem listing_defines_sharedDefinition : sharedDefinition.Coherent ∧
    sharedDefinition.listing.2.lines.map Line.number? = [some 0, none, none, some 1] ∧
    numbersOf sharedDefinition.listing.2.lines =
      List.range sharedDefinition.resultNodes.length := by
  have hf : sharedDefinition.Coherent := by
    let t : Ty := .tensor ⟨[.imm 4 .int64], .float 32⟩
    let x : Var := ⟨0, "x", t⟩
    let y : Var := ⟨1, "y", t⟩
    let relu : Expr := .call 1 "nn.relu" .empty [.var 0 x] t
    let scope : Expr := .letIn 2 y relu (.var 3 y)
    let nodes : List Expr := [.var 0 x, relu, scope, .var 3 y, sharedDefinition.body]
    have hscope : scope.In ⟨fun i => nodes.getD i default⟩ := ⟨rfl, ⟨rfl, rfl, trivial⟩, rfl⟩
    exact ⟨⟨fun i => nodes.getD i default⟩, rfl, hscope, hscope, trivial⟩
  obtain ⟨-, hnumbers, -⟩ := listing_defines hf
  exact ⟨hf, rfl, hnumbers⟩

end Function

end TensorLowering

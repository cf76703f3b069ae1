import TensorLowering.Proofs.Graph.Definitions
import Mathlib.Algebra.Group.Nat.Defs
import Mathlib.Data.List.Dedup

/-!
# The size of a listing

A node whose result is numbered has one line in the listing of a function, however often it is used.
A local definition has none that could be referred to: it is listed again wherever it stands, with
all definitions in its value and its body that stand outside of numbered nodes (`Expr.openLets`). So
the lines of local definitions are those in the body, and for each numbered node those in its parts
(`Function.listedLets`), and the listing has one line for each local definition just if none of them
is listed twice (`Function.listing_size`).

Where definitions are shared, the listing may be much larger than the graph: `nestedDefinition n` is
a graph of `n` local definitions, each of which is used twice by the next one, and every one of them
doubles the number of lines (`length_lines_nestedDefinition`).
-/

namespace TensorLowering

open scoped List

/-! ### The definitions that are listed -/

/-- A local definition. -/
def Expr.isLet : Expr → Bool
  | .letIn .. => true
  | .var .. | .const .. | .call .. | .tuple .. | .proj .. => false

/-- The local definitions in an expression that are in no numbered node. -/
def Expr.openLets : Expr → List Expr
  | .letIn id v value body => value.openLets ++ .letIn id v value body :: body.openLets
  | .var .. | .const .. | .call .. | .tuple .. | .proj .. => []

/-- Those in the parts of a node. -/
def Expr.partLets (e : Expr) : List Expr := e.parts.flatMap openLets

/-- What a local definition is made from: its value and its body. -/
def Expr.letParts : Expr → List Expr
  | .letIn _ _ value body => [value, body]
  | .var .. | .const .. | .call .. | .tuple .. | .proj .. => []

/-- The local definitions of a function, each as often as it is listed. -/
def Function.listedLets (f : Function) : List Expr :=
  f.body.openLets ++ f.resultNodes.flatMap Expr.partLets

/-- The local definitions of a function, each once. -/
def Function.letNodes (f : Function) : List Expr := noteAllBy Expr.id [] f.listedLets

/-- Four lists, put together two by two. -/
theorem perm_append_append_comm {α : Type} (as bs cs ds : List α) :
    ((as ++ bs) ++ (cs ++ ds)).Perm ((as ++ cs) ++ (bs ++ ds)) := by
  rw [List.append_assoc, List.append_assoc as cs]
  refine List.Perm.append_left as ?_
  rw [← List.append_assoc, ← List.append_assoc]
  exact List.perm_append_comm.append_right ds

namespace Expr

variable {d e : Expr}

private theorem openLets_of_isNumbered (h : e.isNumbered) : e.openLets = [] := by
  cases e with
  | var | const | letIn => cases h
  | call | tuple | proj => rfl

private theorem within_of_mem_openLets : (e : Expr) → d ∈ e.openLets → d.Within e ∧ d.isLet
  | .letIn id v value body, h => by
    rw [openLets, List.mem_append, List.mem_cons] at h
    obtain h | rfl | h := h
    · obtain ⟨hwithin, hlet⟩ := within_of_mem_openLets value h
      exact ⟨.letValue id v body hwithin, hlet⟩
    · exact ⟨.refl _, rfl⟩
    · obtain ⟨hwithin, hlet⟩ := within_of_mem_openLets body h
      exact ⟨.letBody id v value hwithin, hlet⟩
  | .var .., h | .const .., h | .call .., h | .tuple .., h | .proj .., h => by cases h

/-- A local definition in an expression is in no numbered node, or in the parts of one. -/
private theorem Within.mem_openLets_or (h : d.Within e) (hd : d.isLet) :
    d ∈ e.openLets ∨ ∃ c : Expr, c.Within e ∧ c.isNumbered ∧ d ∈ c.partLets := by
  induction h with
  | refl e =>
    cases e with
    | letIn => exact Or.inl (List.mem_append_right _ List.mem_cons_self)
    | var | const | call | tuple | proj => cases hd
  | @call id op attrs t args a _ ha _ ih =>
    obtain h | ⟨c, hc, hnumbered, h⟩ := ih hd
    · exact Or.inr ⟨.call id op attrs args t, .refl _, rfl, List.mem_flatMap.mpr ⟨a, ha, h⟩⟩
    · exact Or.inr ⟨c, .call id op attrs t ha hc, hnumbered, h⟩
  | @tuple id fields a _ ha _ ih =>
    obtain h | ⟨c, hc, hnumbered, h⟩ := ih hd
    · exact Or.inr ⟨.tuple id fields, .refl _, rfl, List.mem_flatMap.mpr ⟨a, ha, h⟩⟩
    · exact Or.inr ⟨c, .tuple id ha hc, hnumbered, h⟩
  | @proj id i e _ _ ih =>
    obtain h | ⟨c, hc, hnumbered, h⟩ := ih hd
    · exact Or.inr ⟨.proj id e i, .refl _, rfl,
        List.mem_flatMap.mpr ⟨e, List.mem_singleton_self e, h⟩⟩
    · exact Or.inr ⟨c, .proj id i hc, hnumbered, h⟩
  | letValue id v body _ ih =>
    obtain h | ⟨c, hc, hnumbered, h⟩ := ih hd
    · exact Or.inl (List.mem_append_left _ h)
    · exact Or.inr ⟨c, .letValue id v body hc, hnumbered, h⟩
  | letBody id v value _ ih =>
    obtain h | ⟨c, hc, hnumbered, h⟩ := ih hd
    · exact Or.inl (List.mem_append_right _ (List.mem_cons_of_mem _ h))
    · exact Or.inr ⟨c, .letBody id v value hc, hnumbered, h⟩

/-- The definitions in some expressions are these expressions and what the definitions are made
from, as far as they are definitions. -/
private theorem perm_flatMap_openLets_of {es : List Expr}
    (h : ∀ e ∈ es, e.openLets.Perm ((e :: e.openLets.flatMap letParts).filter isLet)) :
    (es.flatMap openLets).Perm
      ((es ++ (es.flatMap openLets).flatMap letParts).filter isLet) := by
  induction es with
  | nil => exact .refl _
  | cons e es ih =>
    rw [List.forall_mem_cons] at h
    refine (h.1.append (ih h.2)).trans ?_
    rw [← List.filter_append, List.flatMap_cons, List.flatMap_append]
    exact (perm_append_append_comm [e] _ es _).filter _

/-- The definitions in an expression are this expression and what the definitions are made from, as
far as they are definitions. -/
private theorem perm_openLets : (e : Expr) →
    e.openLets.Perm ((e :: e.openLets.flatMap letParts).filter isLet)
  | .letIn id v value body => by
    have hboth := perm_flatMap_openLets_of
      (List.forall_mem_cons.mpr
        ⟨perm_openLets value, List.forall_mem_singleton.mpr (perm_openLets body)⟩)
    rw [List.flatMap_cons, List.flatMap_singleton] at hboth
    calc value.openLets ++ letIn id v value body :: body.openLets
      _ ~ letIn id v value body :: (value.openLets ++ body.openLets) := List.perm_middle
      _ ~ letIn id v value body ::
          ([value, body] ++ (value.openLets ++ body.openLets).flatMap letParts).filter isLet :=
        hboth.cons _
      _ = (letIn id v value body :: (letIn id v value body ::
          (value.openLets ++ body.openLets)).flatMap letParts).filter isLet := rfl
      _ ~ (letIn id v value body :: (value.openLets ++
          letIn id v value body :: body.openLets).flatMap letParts).filter isLet :=
        ((List.perm_middle.symm.flatMap_right letParts).cons _).filter _
  | .var .. | .const .. | .call .. | .tuple .. | .proj .. => .refl _

/-- The same for several expressions. -/
private theorem perm_flatMap_openLets (es : List Expr) :
    (es.flatMap openLets).Perm
      ((es ++ (es.flatMap openLets).flatMap letParts).filter isLet) :=
  perm_flatMap_openLets_of fun e _ => perm_openLets e

end Expr

/-- Elements are noted as often as they are given just if they have different keys. -/
private theorem length_noteAllBy_nil_eq_iff {α : Type} {key : α → Nat} {as : List α} :
    (noteAllBy key [] as).length = as.length ↔ (as.map key).Nodup := by
  have hperm : ((noteAllBy key [] as).map key).Perm (as.map key).dedup := by
    refine (List.perm_ext_iff_of_nodup (nodup_noteAllBy_nil key as) (List.nodup_dedup _)).mpr
      fun n => ?_
    rw [List.mem_dedup, List.mem_map, List.mem_map]
    constructor
    · rintro ⟨a, ha, rfl⟩
      exact ⟨a, (mem_noteAllBy ha).resolve_left List.not_mem_nil, rfl⟩
    · rintro ⟨a, ha, rfl⟩
      exact List.mem_map.mp (key_mem_noteAllBy ha [])
  have hlength := hperm.length_eq
  rw [List.length_map] at hlength
  rw [hlength, ← List.length_map (f := key)]
  exact ⟨fun h => List.dedup_eq_self.mp ((List.dedup_sublist _).eq_of_length h),
    fun h => congrArg List.length (List.dedup_eq_self.mpr h)⟩

namespace Function

variable {f : Function} {e : Expr}

private theorem within_of_mem_listedLets (hf : f.Coherent) (h : e ∈ f.listedLets) :
    e.Within f.body ∧ e.isLet := by
  obtain h | h := List.mem_append.mp h
  · exact Expr.within_of_mem_openLets f.body h
  · obtain ⟨d, hd, h⟩ := List.mem_flatMap.mp h
    obtain ⟨a, ha, h⟩ := List.mem_flatMap.mp h
    obtain ⟨hwithin, hlet⟩ := Expr.within_of_mem_openLets a h
    have hnode := ((mem_resultNodes_iff hf).mp hd).1
    exact ⟨hwithin.trans ((Expr.within_of_mem_parts ha).trans hnode), hlet⟩

/-- Every local definition of the body is listed. -/
private theorem mem_listedLets_iff (hf : f.Coherent) :
    e ∈ f.listedLets ↔ e.Within f.body ∧ e.isLet := by
  refine ⟨within_of_mem_listedLets hf, fun ⟨hwithin, hlet⟩ => ?_⟩
  obtain h | ⟨c, hc, hnumbered, h⟩ := hwithin.mem_openLets_or hlet
  · exact List.mem_append_left _ h
  · have hnode := (mem_resultNodes_iff hf).mpr ⟨hc, hnumbered⟩
    exact List.mem_append_right _ (List.mem_flatMap.mpr ⟨c, hnode, h⟩)

private theorem mem_letNodes_iff (hf : f.Coherent) :
    e ∈ f.letNodes ↔ e.Within f.body ∧ e.isLet := by
  obtain ⟨k, hk⟩ := hf
  have hin {d : Expr} (hd : d ∈ f.listedLets) : d.In k :=
    (within_of_mem_listedLets ⟨k, hk⟩ hd).1.inCatalogue hk
  refine (mem_noteAllBy_nil_iff fun a ha b hb hid => ?_).trans (mem_listedLets_iff ⟨k, hk⟩)
  exact Expr.In.eq_of_id_eq (hin ha) (hin hb) hid

end Function

/-! ### The lines of definitions -/

/-- The lines that do not define a number. -/
def definitionsOf (lines : List Line) : List Line := lines.filter fun l => l.number?.isNone

private theorem length_eq_numbersOf_add (lines : List Line) :
    lines.length = (numbersOf lines).length + (definitionsOf lines).length := by
  induction lines with
  | nil => rfl
  | cons line lines ih =>
    cases line with
    | numbered n step t =>
      change lines.length + 1 = (numbersOf lines).length + 1 + (definitionsOf lines).length
      omega
    | definition name t o =>
      change lines.length + 1 = (numbersOf lines).length + ((definitionsOf lines).length + 1)
      omega

/-- The line shows a local definition. -/
inductive Line.Defines : Line → Expr → Prop where
  | letIn (id : Nat) (v : Var) (value body : Expr) (o : Operand) :
      Defines (.definition v.name v.type o) (.letIn id v value body)

namespace Listing

variable {f : Function} {done lets as bs : List Expr} {s s' s'' : Listing} {e : Expr}

/-- The lines of definitions show these local definitions, in this order. -/
def Lists (s : Listing) (lets : List Expr) : Prop :=
  List.Forall₂ Line.Defines (definitionsOf s.lines) lets

private theorem Lists.number (h : s.Lists lets) (id : Nat) (step : Step) (t : Ty) :
    (s.number id step t).2.Lists lets := by
  rw [Lists, lines_number, definitionsOf, List.filter_append]
  exact (List.append_nil (definitionsOf s.lines)).symm ▸ h

private theorem Lists.define (h : s.Lists lets) (id : Nat) (v : Var) (value body : Expr)
    (o : Operand) : (s.define v.name v.type o).Lists (lets ++ [.letIn id v value body]) := by
  rw [Lists, lines_define, definitionsOf, List.filter_append]
  exact List.rel_append h (.cons (.letIn id v value body o) .nil)

/-- The second listing shows these local definitions besides those of the first, in some order. -/
def Relists (s s' : Listing) (as : List Expr) : Prop :=
  ∀ lets, s.Lists lets → ∃ new, s'.Lists (lets ++ new) ∧ new.Perm as

theorem Relists.refl (s : Listing) : s.Relists s [] :=
  fun lets h => ⟨[], (List.append_nil lets).symm ▸ h, .refl _⟩

theorem Relists.trans (h : s.Relists s' as) (h' : s'.Relists s'' bs) :
    s.Relists s'' (as ++ bs) := by
  intro lets hlets
  obtain ⟨new, hnew, hperm⟩ := h lets hlets
  obtain ⟨new', hnew', hperm'⟩ := h' _ hnew
  exact ⟨new ++ new', List.append_assoc lets new new' ▸ hnew', hperm.append hperm'⟩

private theorem Relists.perm (h : s.Relists s' as) (hperm : as.Perm bs) : s.Relists s' bs := by
  intro lets hlets
  obtain ⟨new, hnew, hnewperm⟩ := h lets hlets
  exact ⟨new, hnew, hnewperm.trans hperm⟩

private theorem Relists.number (h : s.Relists s' as) (id : Nat) (step : Step) (t : Ty) :
    s.Relists (s'.number id step t).2 as := by
  intro lets hlets
  obtain ⟨new, hnew, hperm⟩ := h lets hlets
  exact ⟨new, hnew.number id step t, hperm⟩

private theorem Relists.define (h : s.Relists s' as) (id : Nat) (v : Var) (value body : Expr)
    (o : Operand) : s.Relists (s'.define v.name v.type o) (as ++ [.letIn id v value body]) := by
  refine h.trans fun lets hlets => ⟨_, hlets.define id v value body o, .refl _⟩

/-! ### Listing an expression -/

/-- The nodes that have a line are numbered. -/
private theorem Records.isNumbered (h : s.Records f done) (he : e ∈ done) : e.isNumbered := by
  obtain ⟨n, hn⟩ := List.getElem?_of_mem he
  have hlisted : n ∈ numbersOf s.lines := by
    rw [h.numbers, List.mem_range]
    exact (List.getElem?_eq_some_iff.mp hn).1
  obtain ⟨line, hline, hnumber⟩ := List.mem_filterMap.mp hlisted
  obtain ⟨before, after, hsplit⟩ := List.append_of_mem hline
  have hfits := h.fits before line after hsplit
  cases hfits with
  | call hnode | tuple hnode | proj hnode =>
    obtain rfl := Option.some.inj hnumber
    rw [hn] at hnode
    obtain rfl := Option.some.inj hnode
    rfl
  | definition => cases hnumber

/-- The local definitions that are listed with some expressions: those outside of numbered nodes,
and those in the parts of the nodes that are new. -/
def newLets (done es : List Expr) : List Expr :=
  es.flatMap Expr.openLets ++
    (newBy Expr.id done (es.flatMap Expr.results)).flatMap Expr.partLets

private theorem newLets_cons (done : List Expr) (e : Expr) (es : List Expr) :
    (newLets done [e] ++ newLets (noteAllBy Expr.id done e.results) es).Perm
      (newLets done (e :: es)) := by
  simp only [newLets, List.flatMap_cons, List.flatMap_nil, List.append_nil, newBy_append,
    List.flatMap_append]
  exact perm_append_append_comm ..

/-- With a local definition, those in its value are listed, itself, and those in its body. -/
private theorem newLets_letIn (done : List Expr) (id : Nat) (v : Var) (value body : Expr) :
    (newLets done [value] ++ ([Expr.letIn id v value body] ++
        newLets (noteAllBy Expr.id done value.results) [body])).Perm
      (newLets done [Expr.letIn id v value body]) := by
  simp only [newLets, List.flatMap_cons, List.flatMap_nil, List.append_nil, newBy_append,
    List.flatMap_append, Expr.openLets, Expr.results_letIn]
  rw [← List.append_assoc [_] body.openLets]
  exact perm_append_append_comm ..

/-- Nothing is listed anew where no definition is outside of numbered nodes, and these have lines.
-/
private theorem newLets_eq_nil (hopen : e.openLets = [])
    (hresults : ∀ d ∈ e.results, d.id ∈ done.map Expr.id) : newLets done [e] = [] := by
  simp only [newLets, List.flatMap_cons, List.flatMap_nil, List.append_nil, hopen,
    newBy_of_mem hresults]

/-- With a node that is new, the local definitions are listed that are listed with its parts. -/
private theorem newLets_of_isNumbered {k : Catalogue} (he : e.In k) (hnumbered : e.isNumbered)
    (hmiss : e.id ∉ done.map Expr.id) : (newLets done e.parts).Perm (newLets done [e]) := by
  have hnew := newBy_singleton (Expr.id_notMem_parts he hmiss)
  simp only [newLets, List.flatMap_cons, List.flatMap_nil, List.append_nil,
    Expr.openLets_of_isNumbered hnumbered, Expr.results_of_isNumbered hnumbered, newBy_append, hnew,
    List.flatMap_append, List.nil_append]
  exact List.perm_append_comm

/-- Nothing is listed anew with a node that has a line, so the nodes without one are left. -/
private theorem Records.relists_of {k : Catalogue} (h : s.Records f done) (hk : f.body.In k)
    (he : e.Within f.body)
    (hnew : s.numbers.lookup e.id = none → s.Relists (s.add e).2 (newLets done [e])) :
    s.Relists (s.add e).2 (newLets done [e]) := by
  cases hn : s.numbers.lookup e.id with
  | none => exact hnew hn
  | some n =>
    have hid := (h.lookup_iff e.id n).mp hn
    rw [List.getElem?_map, Option.map_eq_some_iff] at hid
    obtain ⟨d, hd, hid⟩ := hid
    have hmem := List.mem_of_getElem? hd
    obtain rfl := Expr.In.eq_of_id_eq ((h.within d hmem).inCatalogue hk) (he.inCatalogue hk) hid
    rw [add.eq_def, hn,
      newLets_eq_nil (Expr.openLets_of_isNumbered (h.isNumbered hmem)) (h.closed d hmem)]
    exact .refl s

mutual

/-- With an expression, its local definitions are listed that are in no numbered node, and those in
the parts of its nodes that are new. -/
theorem relists_add {k : Catalogue} (hk : f.body.In k) : (e : Expr) → e.Within f.body →
    {s : Listing} → {done : List Expr} → s.Records f done →
    s.Relists (s.add e).2 (newLets done [e])
  | .var id v, he, s, done, h => h.relists_of hk he fun hn => by
    have hnil : newLets done [.var id v] = [] := newLets_eq_nil rfl fun _ h => by cases h
    rw [add, hn, hnil]
    exact .refl s
  | .const id t data, he, s, done, h => h.relists_of hk he fun hn => by
    have hnil : newLets done [.const id t data] = [] := newLets_eq_nil rfl fun _ h => by cases h
    rw [add, hn, hnil]
    exact .refl s
  | .call id op attrs args t, he, _, done, h => h.relists_of hk he fun hn => by
    have hwithin : ∀ a ∈ args, a.Within f.body :=
      fun a ha => Expr.Within.trans (.call id op attrs t ha (.refl a)) he
    have hargs := relists_addAll hk args hwithin h
    have hperm := newLets_of_isNumbered (he.inCatalogue hk) rfl (h.id_notMem hn)
    rw [add, hn]
    exact (hargs.perm hperm).number id _ t
  | .tuple id fields, he, _, done, h => h.relists_of hk he fun hn => by
    have hwithin : ∀ a ∈ fields, a.Within f.body :=
      fun a ha => Expr.Within.trans (.tuple id ha (.refl a)) he
    have hfields := relists_addAll hk fields hwithin h
    have hperm := newLets_of_isNumbered (he.inCatalogue hk) rfl (h.id_notMem hn)
    rw [add, hn]
    exact (hfields.perm hperm).number id _ _
  | .proj id e i, he, _, done, h => h.relists_of hk he fun hn => by
    have hpart := relists_add hk e (Expr.Within.trans (.proj id i (.refl e)) he) h
    have hperm := newLets_of_isNumbered (he.inCatalogue hk) rfl (h.id_notMem hn)
    rw [add, hn]
    exact (hpart.perm hperm).number id _ _
  | .letIn id v value body, he, s, done, h => h.relists_of hk he fun hn => by
    have hwithin : value.Within f.body := Expr.Within.trans (.letValue id v body (.refl _)) he
    obtain ⟨hgrows, hshown⟩ := adds_add hk value hwithin h
    have hvalue := (relists_add hk value hwithin h).define id v value body (s.add value).1
    have hbody := relists_add hk body (Expr.Within.trans (.letBody id v value (.refl _)) he)
      (hgrows.records.define (.definition he hshown))
    rw [add, hn]
    have hall := hvalue.trans hbody
    rw [List.append_assoc] at hall
    exact hall.perm (newLets_letIn done id v value body)

/-- The same for several expressions. -/
theorem relists_addAll {k : Catalogue} (hk : f.body.In k) : (es : List Expr) →
    (∀ e ∈ es, e.Within f.body) → {s : Listing} → {done : List Expr} → s.Records f done →
    s.Relists (s.addAll es).2 (newLets done es)
  | [], _, s, done, _ => by
    have hnil : newLets done [] = [] := by
      have hnew : newBy Expr.id done [] = [] := newBy_of_mem fun _ h => by cases h
      simp only [newLets, List.flatMap_nil, List.nil_append, hnew]
    rw [hnil]
    exact .refl s
  | e :: es, hes, s, done, h => by
    have he := hes e List.mem_cons_self
    obtain ⟨hgrows, -⟩ := adds_add hk e he h
    have htail :=
      relists_addAll hk es (fun d hd => hes d (List.mem_cons_of_mem _ hd)) hgrows.records
    exact ((relists_add hk e he h).trans htail).perm (newLets_cons done e es)

end

end Listing

/-! ### Listings of functions -/

namespace Function

variable {f : Function}

/-- The lines of definitions in a listing. -/
private theorem lists_listing (hf : f.Coherent) :
    ∃ lets, f.listing.2.Lists lets ∧ lets.Perm f.listedLets := by
  obtain ⟨k, hk⟩ := hf
  have hadd := Listing.relists_add hk f.body (.refl _) (Listing.records_empty f)
  obtain ⟨lets, hlets, hperm⟩ := hadd [] .nil
  refine ⟨lets, hlets, hperm.trans (.of_eq ?_)⟩
  simp only [Listing.newLets, List.flatMap_cons, List.flatMap_nil, List.append_nil]
  rfl

private theorem length_lines (hf : f.Coherent) :
    f.listing.2.lines.length = f.resultNodes.length + f.listedLets.length := by
  obtain ⟨lets, hlets, hperm⟩ := lists_listing hf
  obtain ⟨k, hk⟩ := hf
  obtain ⟨⟨hrecords, -⟩, -⟩ := Listing.adds_add hk f.body (.refl _) (Listing.records_empty f)
  have hnumbers : (numbersOf f.listing.2.lines).length = f.resultNodes.length :=
    (congrArg List.length hrecords.numbers).trans List.length_range
  rw [length_eq_numbersOf_add, hnumbers, hlets.length_eq, hperm.length_eq]

/-- A local definition is listed as often as it is used: by the function, by a numbered node, or
each time that another definition is listed which is made from it. -/
private theorem perm_listedLets (f : Function) :
    f.listedLets.Perm ((f.body :: (f.resultNodes.flatMap Expr.parts ++
      f.listedLets.flatMap Expr.letParts)).filter Expr.isLet) := by
  have huses : f.listedLets =
      (f.body :: f.resultNodes.flatMap Expr.parts).flatMap Expr.openLets := by
    rw [List.flatMap_cons, List.flatMap_assoc]
    rfl
  have hperm := Expr.perm_flatMap_openLets (f.body :: f.resultNodes.flatMap Expr.parts)
  rwa [← huses] at hperm

/-- **The size of a listing.** The lines of a listing that define no number show the local
definitions, and each of them as often as it is used by the function, by one of the numbered nodes,
or each time that a definition is listed whose value or body it is. These are all local definitions
of the body, and together with one line for each numbered node they are all lines. So there is one
line for each node and each definition just if no definition is listed twice. The text shows these
lines between its head and the result. -/
theorem listing_size (hf : f.Coherent) :
    (∃ lets, List.Forall₂ Line.Defines (definitionsOf f.listing.2.lines) lets ∧
      lets.Perm f.listedLets) ∧
    f.listedLets.Perm ((f.body :: (f.resultNodes.flatMap Expr.parts ++
      f.listedLets.flatMap Expr.letParts)).filter Expr.isLet) ∧
    f.listing.2.lines.length = f.resultNodes.length + f.listedLets.length ∧
    ((f.letNodes.map Expr.id).Nodup ∧
      ∀ e, (e ∈ f.letNodes ↔ e.Within f.body ∧ e.isLet) ∧ (e ∈ f.letNodes ↔ e ∈ f.listedLets)) ∧
    (f.listing.2.lines.length = f.resultNodes.length + f.letNodes.length ↔
      (f.listedLets.map Expr.id).Nodup) ∧
    f.text = f.textOf f.listing.2.lines f.listing.1 := by
  refine ⟨lists_listing hf, perm_listedLets f, length_lines hf,
    ⟨nodup_noteAllBy_nil Expr.id f.listedLets, fun e => ?_⟩, ?_, text_eq f⟩
  · have hnode := mem_letNodes_iff hf (e := e)
    exact ⟨hnode, hnode.trans (mem_listedLets_iff hf).symm⟩
  · rw [length_lines hf, Nat.add_left_cancel_iff, eq_comm]
    exact length_noteAllBy_nil_eq_iff

/-! ### Definitions that are shared -/

/-- A number of local definitions, of which each but the first is made from the one before it, once
for its value and once for its body. -/
def nestedDefinition : Nat → Expr
  | 0 => .const 0 ⟨[], .float 32⟩ [0, 0, 0, 0]
  | n + 1 => .letIn (n + 1) ⟨n, "x", .tensor ⟨[], .float 32⟩⟩ (nestedDefinition n)
    (nestedDefinition n)

private theorem in_nestedDefinition (n : Nat) : (nestedDefinition n).In ⟨nestedDefinition⟩ := by
  induction n with
  | zero => rfl
  | succ n ih => exact ⟨rfl, ih, ih⟩

private theorem coherent_nestedDefinition (n : Nat) :
    (Function.ofBody [] (nestedDefinition n)).Coherent :=
  ⟨⟨nestedDefinition⟩, in_nestedDefinition n⟩

private theorem results_nestedDefinition (n : Nat) : (nestedDefinition n).results = [] := by
  induction n with
  | zero => rfl
  | succ n ih => rw [nestedDefinition, Expr.results_letIn, ih, List.nil_append]

private theorem resultNodes_nestedDefinition (n : Nat) :
    (Function.ofBody [] (nestedDefinition n)).resultNodes = [] := by
  change noteAllBy Expr.id [] (nestedDefinition n).results = []
  rw [results_nestedDefinition]
  rfl

private theorem listedLets_nestedDefinition (n : Nat) :
    (Function.ofBody [] (nestedDefinition n)).listedLets = (nestedDefinition n).openLets := by
  rw [listedLets, resultNodes_nestedDefinition, List.flatMap_nil, List.append_nil]
  rfl

private theorem letNodes_nestedDefinition (n : Nat) :
    (Function.ofBody [] (nestedDefinition n)).letNodes =
      (List.range n).map fun i => nestedDefinition (i + 1) := by
  rw [letNodes, listedLets_nestedDefinition]
  induction n with
  | zero => rfl
  | succ n ih =>
    have hids : ((List.range n).map fun i => nestedDefinition (i + 1)).map Expr.id =
        (List.range n).map (· + 1) := List.map_map
    have hnew : (nestedDefinition (n + 1)).id ∉
        ((List.range n).map fun i => nestedDefinition (i + 1)).map Expr.id := by
      rw [hids, List.mem_map]
      rintro ⟨i, hi, heq⟩
      have hlt := List.mem_range.mp hi
      have heq : i + 1 = n + 1 := heq
      omega
    -- the definitions in the body are those that were listed with the value
    have hagain : ∀ d ∈ (nestedDefinition n).openLets, d.id ∈
        (((List.range n).map fun i => nestedDefinition (i + 1)) ++
          [nestedDefinition (n + 1)]).map Expr.id := by
      intro d hd
      rw [← ih, List.map_append]
      exact List.mem_append_left _ (key_mem_noteAllBy hd [])
    have hopen : (nestedDefinition (n + 1)).openLets = (nestedDefinition n).openLets ++
        ([nestedDefinition (n + 1)] ++ (nestedDefinition n).openLets) := rfl
    have hnote : noteAllBy Expr.id ((List.range n).map fun i => nestedDefinition (i + 1))
        [nestedDefinition (n + 1)] = ((List.range n).map fun i => nestedDefinition (i + 1)) ++
          [nestedDefinition (n + 1)] := if_neg hnew
    rw [hopen, noteAllBy_append, ih, noteAllBy_append, hnote, noteAllBy_of_mem hagain,
      List.range_succ, List.map_append, List.map_singleton]

/-- Every further definition doubles the listing. -/
theorem length_lines_nestedDefinition (n : Nat) :
    (Function.ofBody [] (nestedDefinition n)).letNodes.length = n ∧
      (Function.ofBody [] (nestedDefinition n)).listing.2.lines.length + 1 = 2 ^ n := by
  refine ⟨by rw [letNodes_nestedDefinition, List.length_map, List.length_range], ?_⟩
  rw [length_lines (coherent_nestedDefinition n), resultNodes_nestedDefinition,
    listedLets_nestedDefinition, List.length_nil, Nat.zero_add]
  induction n with
  | zero => rfl
  | succ n ih =>
    rw [nestedDefinition, Expr.openLets, List.length_append, List.length_cons, pow_succ]
    omega

/-- Two definitions, and the first one is used twice. -/
theorem listing_size_nestedDefinition :
    (Function.ofBody [] (nestedDefinition 2)).Coherent ∧
      (Function.ofBody [] (nestedDefinition 2)).letNodes.length = 2 ∧
      (Function.ofBody [] (nestedDefinition 2)).listing.2.lines.length = 3 ∧
      ¬((Function.ofBody [] (nestedDefinition 2)).listedLets.map Expr.id).Nodup := by
  have hf := coherent_nestedDefinition 2
  obtain ⟨hlets, hlines⟩ := length_lines_nestedDefinition 2
  have hlines : (Function.ofBody [] (nestedDefinition 2)).listing.2.lines.length = 3 :=
    Nat.succ.inj hlines
  obtain ⟨-, -, -, -, hiff, -⟩ := listing_size hf
  refine ⟨hf, hlets, hlines, fun hnodup => ?_⟩
  have hone := hiff.mpr hnodup
  rw [hlines, hlets, resultNodes_nestedDefinition] at hone
  cases hone

/-- A pair of one definition. -/
def pairOfDefinition : Function :=
  let t : TensorType := ⟨[.imm 4 .int64], .float 32⟩
  let x : Var := ⟨0, "x", .tensor t⟩
  let value : Expr := .const 0 t (List.replicate 16 0)
  let scope : Expr := .letIn 2 x value (.var 1 x)
  .ofBody [] (.tuple 3 [scope, scope])

/-- **A definition that is shared is listed again.** A pair of one local definition is a graph of
two nodes that would be listed, and its listing has three lines. -/
theorem exists_relisted : ∃ f : Function, f.Coherent ∧
    f.resultNodes.length + f.letNodes.length = 2 ∧ f.listing.2.lines.length = 3 ∧
    f.listing.2.lines.map Line.number? = [none, none, some 0] := by
  refine ⟨pairOfDefinition, ?_, rfl, rfl, rfl⟩
  let t : TensorType := ⟨[.imm 4 .int64], .float 32⟩
  let x : Var := ⟨0, "x", .tensor t⟩
  let value : Expr := .const 0 t (List.replicate 16 0)
  let scope : Expr := .letIn 2 x value (.var 1 x)
  let nodes : List Expr := [value, .var 1 x, scope, pairOfDefinition.body]
  have hscope : scope.In ⟨fun i => nodes.getD i default⟩ := ⟨rfl, rfl, rfl⟩
  exact ⟨⟨fun i => nodes.getD i default⟩, rfl, hscope, hscope, trivial⟩

end Function

end TensorLowering

import Mathlib.Data.List.Nodup
import TwinLisp.Graph.Verify
import TwinLisp.Graph.WellFormed
import TwinLisp.Proofs.Run

/-!
The first pass over a body, as the recording of a list of events. The pass succeeds exactly where
the events of the body are in order, and what it finds out is what they say.
-/

namespace TwinLisp.Graph

/-- What the first pass comes upon. -/
inductive Event
  | header (id position : Nat) (terminated : Bool)
  | define (value : ValueId) (site : Site)
  | allocate (slot : SlotId) (block : BlockId)
  | edge (source target : BlockId)

namespace Event

def value? : Event → Option ValueId
  | define value _ => some value
  | _ => none

def slot? : Event → Option SlotId
  | allocate slot _ => some slot
  | _ => none

def ofInstr (block : BlockId) (instr : Instr) (index : Nat) : List Event :=
  match instr with
  | .alloca slot => [allocate slot block]
  | .define dst _ => [define dst (.instr block index)]
  | .perform _ => []

def ofBlock (block : Block) (position : Nat) : List Event :=
  header block.id position block.terminator.isSome ::
    (block.instrs.zipIdx.flatMap fun p => ofInstr block.id p.1 p.2) ++
    (block.terminator.toList.flatMap Terminator.successors).map (edge block.id ·)

def ofBody (body : Body) : List Event :=
  body.params.map (define · .param) ++ body.blocks.zipIdx.flatMap fun p => ofBlock p.1 p.2

/-- Events that the first pass lets pass. -/
structure InOrder (body : Body) (events : List Event) : Prop where
  headers : ∀ id position terminated, header id position terminated ∈ events →
    id = position ∧ terminated = true
  defined_nodup : (events.filterMap value?).Nodup
  defined_lt : ∀ value site, define value site ∈ events → value < body.types.size
  allocated_nodup : (events.filterMap slot?).Nodup
  allocated : ∀ slot block, allocate slot block ∈ events → block = 0 ∧ slot < body.slots.size
  targets : ∀ source target, edge source target ∈ events → target < body.blocks.length

/-- The facts are what the events say. -/
structure Recorded (body : Body) (facts : Facts) (events : List Event) : Prop where
  sites_size : facts.sites.size = body.types.size
  sites : ∀ value site, facts.sites[value]? = some (some site) ↔ define value site ∈ events
  allocated : ∀ slot, slot ∈ facts.allocated ↔ ∃ block, allocate slot block ∈ events
  preds_size : facts.preds.size = body.blocks.length
  preds_nodup : ∀ (target : BlockId) preds, facts.preds[target]? = some preds → preds.Nodup
  preds : ∀ (target : BlockId) preds, facts.preds[target]? = some preds →
    ∀ source, source ∈ preds ↔ edge source target ∈ events

theorem InOrder.of_append {body : Body} {before after : List Event}
    (h : InOrder body (before ++ after)) : InOrder body before where
  headers id position terminated hm := h.headers id position terminated (List.mem_append_left _ hm)
  defined_nodup := by
    have nodup := h.defined_nodup
    rw [List.filterMap_append] at nodup
    exact nodup.of_append_left
  defined_lt value site hm := h.defined_lt value site (List.mem_append_left _ hm)
  allocated_nodup := by
    have nodup := h.allocated_nodup
    rw [List.filterMap_append] at nodup
    exact nodup.of_append_left
  allocated slot block hm := h.allocated slot block (List.mem_append_left _ hm)
  targets source target hm := h.targets source target (List.mem_append_left _ hm)

/-- Running `x` on facts that are recorded for events in order records further events: it succeeds
exactly if these are in order too. -/
structure Records {ε : Type} (body : Body) (x : Facts → Except ε Facts) (events : List Event) :
    Prop where
  ok : ∀ {facts before facts'}, Recorded body facts before → InOrder body before →
    x facts = .ok facts' →
      InOrder body (before ++ events) ∧ Recorded body facts' (before ++ events)
  total : ∀ {facts before}, Recorded body facts before → InOrder body (before ++ events) →
    ∃ facts', x facts = .ok facts'

variable {ε δ : Type} {body : Body} {x y : Facts → Except ε Facts} {events more : List Event}

theorem Records.nothing : Records body (fun facts => (.ok facts : Except ε Facts)) [] where
  ok recorded inOrder h := by
    cases h
    rw [List.append_nil]
    exact ⟨inOrder, recorded⟩
  total _ _ := ⟨_, rfl⟩

theorem Records.congr (same : ∀ facts, y facts = x facts) (h : Records body x events) :
    Records body y events :=
  (funext same : y = x) ▸ h

/-- Passes one after the other record the events of both. -/
theorem Records.bind (first : Records body x events) (rest : Records body y more) :
    Records body (fun facts => x facts >>= y) (events ++ more) where
  ok recorded inOrder h := by
    obtain ⟨middle, hx, hy⟩ := except_bind_ok_iff.mp h
    obtain ⟨inOrder', recorded'⟩ := first.ok recorded inOrder hx
    rw [← List.append_assoc]
    exact rest.ok recorded' inOrder' hy
  total recorded inOrder := by
    rw [← List.append_assoc] at inOrder
    obtain ⟨middle, hx⟩ := first.total recorded inOrder.of_append
    obtain ⟨inOrder', recorded'⟩ := first.ok recorded inOrder.of_append.of_append hx
    obtain ⟨facts', hy⟩ := rest.total recorded' inOrder
    exact ⟨facts', except_bind_ok_iff.mpr ⟨middle, hx, hy⟩⟩

/-- A pass over a list records the events of its elements. -/
theorem Records.foldlM {α : Type} {step : Facts → α → Except ε Facts} {of : α → List Event}
    (body : Body) (xs : List α) (each : ∀ a, Records body (step · a) (of a)) :
    Records body (xs.foldlM step) (xs.flatMap of) := by
  induction xs with
  | nil => exact .nothing
  | cons a xs ih =>
    rw [List.flatMap_cons]
    exact (each a).bind ih

theorem Records.mapError (f : ε → δ) (h : Records body x events) :
    Records body (fun facts => (x facts).mapError f) events where
  ok {facts before facts'} recorded inOrder run := by
    cases hx : x facts with
    | error e => simp only [hx, Except.mapError, reduceCtorEq] at run
    | ok middle =>
      simp only [hx, Except.mapError, Except.ok.injEq] at run
      exact run ▸ h.ok recorded inOrder hx
  total recorded inOrder := by
    obtain ⟨facts', hx⟩ := h.total recorded inOrder
    exact ⟨facts', by simp only [hx, Except.mapError]⟩

theorem mem_value?_iff {value : ValueId} :
    value ∈ events.filterMap value? ↔ ∃ site, define value site ∈ events := by
  rw [List.mem_filterMap]
  constructor
  · rintro ⟨e, he, hv⟩
    cases e with
    | define value' site =>
      cases hv
      exact ⟨site, he⟩
    | _ => cases hv
  · rintro ⟨site, he⟩
    exact ⟨_, he, rfl⟩

theorem mem_slot?_iff {slot : SlotId} :
    slot ∈ events.filterMap slot? ↔ ∃ block, allocate slot block ∈ events := by
  rw [List.mem_filterMap]
  constructor
  · rintro ⟨e, he, hs⟩
    cases e with
    | allocate slot' block =>
      cases hs
      exact ⟨block, he⟩
    | _ => cases hs
  · rintro ⟨block, he⟩
    exact ⟨_, he, rfl⟩

theorem nodup_concat_iff {α : Type} {xs : List α} {a : α} :
    (xs ++ [a]).Nodup ↔ xs.Nodup ∧ a ∉ xs := by
  rw [List.nodup_append_comm]
  exact List.nodup_cons.trans and_comm

/-- The event may follow the ones before it. -/
def Admits (body : Body) (before : List Event) : Event → Prop
  | header id position terminated => id = position ∧ terminated = true
  | define value _ => value < body.types.size ∧ value ∉ before.filterMap value?
  | allocate slot block => block = 0 ∧ slot < body.slots.size ∧ slot ∉ before.filterMap slot?
  | edge _ target => target < body.blocks.length

/-- Events are in order if each is admitted by those before it. -/
theorem inOrder_concat_iff {before : List Event} {e : Event} :
    InOrder body (before ++ [e]) ↔ InOrder body before ∧ Admits body before e := by
  constructor
  · intro h
    have last : e ∈ before ++ [e] := List.mem_append_right _ (List.mem_singleton.mpr rfl)
    have defined := h.defined_nodup
    have allocated := h.allocated_nodup
    rw [List.filterMap_append] at defined allocated
    refine ⟨h.of_append, ?_⟩
    -- what admits an event depends on its kind
    cases e with
    | header id position terminated => exact h.headers id position terminated last
    | define value site => exact ⟨h.defined_lt value site last, (nodup_concat_iff.mp defined).2⟩
    | allocate slot block =>
      obtain ⟨entry, bound⟩ := h.allocated slot block last
      exact ⟨entry, bound, (nodup_concat_iff.mp allocated).2⟩
    | edge source target => exact h.targets source target last
  · rintro ⟨h, admitted⟩
    -- an event is one of those before, or the last
    refine ⟨?_, ?_, ?_, ?_, ?_, ?_⟩
    · intro id position terminated hm
      rcases List.mem_append.mp hm with hm | hm
      · exact h.headers id position terminated hm
      · cases List.mem_singleton.mp hm
        exact admitted
    · rw [List.filterMap_append]
      cases e with
      | define value site => exact nodup_concat_iff.mpr ⟨h.defined_nodup, admitted.2⟩
      | _ => exact (List.append_nil _).symm ▸ h.defined_nodup
    · intro value site hm
      rcases List.mem_append.mp hm with hm | hm
      · exact h.defined_lt value site hm
      · cases List.mem_singleton.mp hm
        exact admitted.1
    · rw [List.filterMap_append]
      cases e with
      | allocate slot block => exact nodup_concat_iff.mpr ⟨h.allocated_nodup, admitted.2.2⟩
      | _ => exact (List.append_nil _).symm ▸ h.allocated_nodup
    · intro slot block hm
      rcases List.mem_append.mp hm with hm | hm
      · exact h.allocated slot block hm
      · cases List.mem_singleton.mp hm
        exact ⟨admitted.1, admitted.2.1⟩
    · intro source target hm
      rcases List.mem_append.mp hm with hm | hm
      · exact h.targets source target hm
      · cases List.mem_singleton.mp hm
        exact admitted

/-- A step that succeeds exactly where its event is admitted records it. -/
theorem records_of_step {e : Event}
    (step : ∀ {facts before facts'}, Recorded body facts before → x facts = .ok facts' →
      Admits body before e ∧ Recorded body facts' (before ++ [e]))
    (total : ∀ {facts before}, Recorded body facts before → Admits body before e →
      ∃ facts', x facts = .ok facts') : Records body x [e] where
  ok recorded inOrder h :=
    have done := step recorded h
    ⟨inOrder_concat_iff.mpr ⟨inOrder, done.1⟩, done.2⟩
  total recorded inOrder := total recorded (inOrder_concat_iff.mp inOrder).2

theorem require_ok_iff {ok : Bool} {e : ε} : require ok e = .ok ⟨⟩ ↔ ok = true := by
  cases ok
  · exact ⟨fun h => (nomatch h), fun h => (nomatch h)⟩
  · exact ⟨fun _ => rfl, fun _ => rfl⟩

theorem require_bind_ok_iff {α : Type} {ok : Bool} {e : ε} {f : PUnit → Except ε α} {a : α} :
    (require ok e >>= f) = .ok a ↔ ok = true ∧ f ⟨⟩ = .ok a := by
  rw [except_bind_ok_iff]
  constructor
  · rintro ⟨⟨⟩, hok, hf⟩
    exact ⟨require_ok_iff.mp hok, hf⟩
  · rintro ⟨hok, hf⟩
    exact ⟨⟨⟩, require_ok_iff.mpr hok, hf⟩

theorem site?_iff_of_recorded {facts : Facts} {before : List Event}
    (recorded : Recorded body facts before) {value : ValueId} :
    facts.sites[value]? = some none ↔
      value < body.types.size ∧ value ∉ before.filterMap value? := by
  rw [mem_value?_iff]
  constructor
  · intro free
    obtain ⟨bound, -⟩ := Array.getElem?_eq_some_iff.mp free
    refine ⟨recorded.sites_size ▸ bound, ?_⟩
    rintro ⟨site, defined⟩
    have known := (recorded.sites value site).mpr defined
    rw [free] at known
    cases known
  · rintro ⟨bound, unseen⟩
    -- a value in range has an entry, and it is not taken unless an event has defined the value
    cases known : facts.sites[value]? with
    | none =>
      have beyond := Array.getElem?_eq_none_iff.mp known
      rw [recorded.sites_size] at beyond
      exact absurd bound (Nat.not_lt.mpr beyond)
    | some entry =>
      cases entry with
      | none => rfl
      | some site => exact absurd ⟨site, (recorded.sites value site).mp known⟩ unseen

section Concat

variable {facts : Facts} {before : List Event} {e : Event}

theorem mem_concat_other {event : Event} (other : e ≠ event) : event ∈ before ++ [e] ↔ event ∈ before := by
  rw [List.mem_append, List.mem_singleton, or_iff_left other.symm]

theorem Recorded.sites_concat (recorded : Recorded body facts before)
    (other : ∀ value site, e ≠ define value site) (value : ValueId) (site : Site) :
    facts.sites[value]? = some (some site) ↔ define value site ∈ before ++ [e] := by
  rw [mem_concat_other (other value site)]
  exact recorded.sites value site

theorem Recorded.allocated_concat (recorded : Recorded body facts before)
    (other : ∀ slot block, e ≠ allocate slot block) (slot : SlotId) :
    slot ∈ facts.allocated ↔ ∃ block, allocate slot block ∈ before ++ [e] := by
  simp only [mem_concat_other (other slot _)]
  exact recorded.allocated slot

theorem Recorded.preds_concat (recorded : Recorded body facts before) {target : BlockId}
    {preds : List BlockId} (other : ∀ source, e ≠ edge source target)
    (found : facts.preds[target]? = some preds) (source : BlockId) :
    source ∈ preds ↔ edge source target ∈ before ++ [e] := by
  rw [mem_concat_other (other source)]
  exact recorded.preds target preds found source

/-- A header is looked at and leaves no trace in the facts. -/
theorem Recorded.header (recorded : Recorded body facts before) (id position : Nat)
    (terminated : Bool) : Recorded body facts (before ++ [.header id position terminated]) where
  sites_size := recorded.sites_size
  sites := recorded.sites_concat nofun
  allocated := recorded.allocated_concat nofun
  preds_size := recorded.preds_size
  preds_nodup := recorded.preds_nodup
  preds _ _ found := recorded.preds_concat nofun found

/-- An edge that is there already is not recorded again. -/
theorem Recorded.edge_again (recorded : Recorded body facts before) {source target : BlockId}
    {preds : List BlockId} (found : facts.preds[target]? = some preds) (known : source ∈ preds) :
    Recorded body facts (before ++ [edge source target]) where
  sites_size := recorded.sites_size
  sites := recorded.sites_concat nofun
  allocated := recorded.allocated_concat nofun
  preds_size := recorded.preds_size
  preds_nodup := recorded.preds_nodup
  preds t l hl s := by
    rw [recorded.preds t l hl s, List.mem_append, List.mem_singleton]
    refine (or_iff_left_of_imp fun same => ?_).symm
    cases same
    exact (recorded.preds target preds found source).mp known

/-- A new edge makes its source the last predecessor of its target. -/
theorem Recorded.edge_new (recorded : Recorded body facts before) {source target : BlockId}
    {preds : List BlockId} (found : facts.preds[target]? = some preds) (fresh : source ∉ preds) :
    Recorded body { facts with preds := facts.preds.set! target (preds ++ [source]) }
      (before ++ [edge source target]) := by
  obtain ⟨bound, -⟩ := Array.getElem?_eq_some_iff.mp found
  -- only the list of the target is another one
  have changed : ∀ t l, (facts.preds.set! target (preds ++ [source]))[t]? = some l →
      (t = target ∧ l = preds ++ [source]) ∨ (t ≠ target ∧ facts.preds[t]? = some l) := by
    intro t l hl
    rw [Array.set!_eq_setIfInBounds, Array.getElem?_setIfInBounds] at hl
    by_cases same : target = t
    · subst same
      rw [if_pos rfl, if_pos bound] at hl
      exact .inl ⟨rfl, (Option.some.inj hl).symm⟩
    · rw [if_neg same] at hl
      exact .inr ⟨Ne.symm same, hl⟩
  -- sites and slots as before; of the edges, the one list has got one more source
  refine ⟨recorded.sites_size, recorded.sites_concat nofun, recorded.allocated_concat nofun, ?_,
    fun t l hl => ?_, fun t l hl s => ?_⟩
  · rw [Array.set!_eq_setIfInBounds, Array.size_setIfInBounds]
    exact recorded.preds_size
  · rcases changed t l hl with ⟨rfl, rfl⟩ | ⟨-, hl⟩
    · exact nodup_concat_iff.mpr ⟨recorded.preds_nodup t preds found, fresh⟩
    · exact recorded.preds_nodup t l hl
  · rcases changed t l hl with ⟨rfl, rfl⟩ | ⟨other, hl⟩
    · rw [List.mem_append, List.mem_append, List.mem_singleton, List.mem_singleton,
        recorded.preds t preds found s]
      simp only [edge.injEq, and_true]
    · refine recorded.preds_concat (fun s => ?_) hl s
      rintro ⟨⟩
      exact other rfl

end Concat

/-- A value is recorded with its site, and refused when it has one. -/
theorem records_define (value : ValueId) (site : Site) :
    Records body (Facts.define · value site) [define value site] := by
  refine records_of_step ?_ ?_
  · intro facts before facts' recorded h
    unfold Facts.define at h
    split at h
    next => cases h
    next => cases h
    next free =>
      cases h
      obtain ⟨bound, -⟩ := Array.getElem?_eq_some_iff.mp free
      -- the free entry is what admits the event; of the facts only the sites change
      refine ⟨(site?_iff_of_recorded recorded).mp free, ?_, ?_, recorded.allocated_concat nofun,
        recorded.preds_size, recorded.preds_nodup, fun _ _ found => recorded.preds_concat nofun found⟩
      · rw [Array.set!_eq_setIfInBounds, Array.size_setIfInBounds]
        exact recorded.sites_size
      · intro v s
        rw [Array.set!_eq_setIfInBounds, List.mem_append, List.mem_singleton,
          ← recorded.sites v s, Array.getElem?_setIfInBounds]
        by_cases same : value = v
        · subst same
          rw [if_pos rfl, if_pos bound, free]
          simp only [Option.some.injEq, reduceCtorEq, false_or, define.injEq, true_and]
          exact eq_comm
        · rw [if_neg same]
          simp only [define.injEq, Ne.symm same, false_and, or_false]
  · intro facts before recorded admitted
    refine ⟨{ facts with sites := facts.sites.set! value (some site) }, ?_⟩
    unfold Facts.define
    rw [(site?_iff_of_recorded recorded).mpr admitted]

/-- A slot is recorded once, in the entry block. -/
theorem records_allocate (slot : SlotId) (block : BlockId) :
    Records body (Facts.allocate · body slot block) [allocate slot block] := by
  -- the list of allocated slots and the events agree on what has been seen
  have seen : ∀ {facts before}, Recorded body facts before →
      ((!facts.allocated.contains slot) = true ↔ slot ∉ before.filterMap slot?) := by
    intro facts before recorded
    rw [mem_slot?_iff, ← recorded.allocated slot, Bool.not_eq_true', ← Bool.not_eq_true,
      List.contains_iff_mem]
  refine records_of_step ?_ ?_
  · intro facts before facts' recorded h
    -- the three demands on an allocation, in the order of the pass
    obtain ⟨entry, h⟩ := require_bind_ok_iff.mp h
    obtain ⟨bound, h⟩ := require_bind_ok_iff.mp h
    obtain ⟨once, h⟩ := require_bind_ok_iff.mp h
    cases h
    refine ⟨⟨of_decide_eq_true entry, of_decide_eq_true bound, (seen recorded).mp once⟩,
      recorded.sites_size, recorded.sites_concat nofun, fun other => ?_, recorded.preds_size,
      recorded.preds_nodup, fun _ _ found => recorded.preds_concat nofun found⟩
    rw [List.mem_cons, recorded.allocated other]
    simp only [List.mem_append, List.mem_singleton, allocate.injEq, exists_or]
    constructor
    · rintro (rfl | h)
      · exact .inr ⟨_, rfl, rfl⟩
      · exact .inl h
    · rintro (h | ⟨_, rfl, _⟩)
      · exact .inr h
      · exact .inl rfl
  · intro facts before recorded admitted
    obtain ⟨entry, bound, once⟩ := admitted
    refine ⟨{ facts with allocated := slot :: facts.allocated },
      require_bind_ok_iff.mpr ⟨decide_eq_true entry, ?_⟩⟩
    refine require_bind_ok_iff.mpr ⟨decide_eq_true bound, ?_⟩
    exact require_bind_ok_iff.mpr ⟨(seen recorded).mpr once, rfl⟩

/-- An edge is recorded with its target, which has to be a block. -/
theorem records_addEdge (source target : BlockId) :
    Records body (Facts.addEdge · source target) [edge source target] := by
  refine records_of_step ?_ ?_
  · intro facts before facts' recorded h
    unfold Facts.addEdge at h
    split at h
    next => cases h
    next preds found =>
      obtain ⟨bound, -⟩ := Array.getElem?_eq_some_iff.mp found
      refine ⟨(recorded.preds_size ▸ bound : target < body.blocks.length), ?_⟩
      -- an edge that is known already is not recorded again
      split at h
      next known =>
        cases h
        exact recorded.edge_again found (List.contains_iff_mem.mp known)
      next new =>
        cases h
        exact recorded.edge_new found fun mem => new (List.contains_iff_mem.mpr mem)
  · intro facts before recorded admitted
    -- a target in range has a list, so that nothing can fail
    have bound : target < facts.preds.size := recorded.preds_size.symm ▸ admitted
    unfold Facts.addEdge
    rw [Array.getElem?_eq_getElem bound]
    simp only
    split
    · exact ⟨_, rfl⟩
    · exact ⟨_, rfl⟩

theorem records_addInstr (block : BlockId) (instr : Instr) (index : Nat) :
    Records body (Facts.addInstr · body block instr index) (ofInstr block instr index) := by
  cases instr with
  | alloca slot => exact records_allocate slot block
  | define dst operation => exact records_define dst _
  | perform effect => exact .nothing

/-- A block is recorded by its header, its instructions and its edges. -/
theorem records_addBlock (block : Block) (position : Nat) :
    Records body (Facts.addBlock · body block position) (ofBlock block position) := by
  unfold ofBlock
  cases terminator : block.terminator with
  | none =>
    constructor
    · intro facts before facts' _ _ h
      obtain ⟨-, h⟩ := require_bind_ok_iff.mp h
      rw [terminator] at h
      cases h
    · intro facts before _ inOrder
      -- the header says that there is no terminator, which is out of order
      have bad := inOrder.headers block.id position false
        (List.mem_append_right _ List.mem_cons_self)
      exact absurd bad.2 Bool.false_ne_true
  | some t =>
    have header : Records body (fun facts => require (block.id = position) Defect.idMismatch >>=
        fun _ => (.ok facts : Except Defect Facts)) [header block.id position true] := by
      refine records_of_step ?_ ?_
      · intro facts before facts' recorded h
        obtain ⟨same, h⟩ := require_bind_ok_iff.mp h
        cases h
        exact ⟨⟨of_decide_eq_true same, rfl⟩, recorded.header _ _ _⟩
      · intro facts before _ admitted
        exact ⟨facts, require_bind_ok_iff.mpr ⟨decide_eq_true admitted.1, rfl⟩⟩
    have instrs := Records.foldlM body block.instrs.zipIdx
      (fun p : Instr × Nat => records_addInstr block.id p.1 p.2)
    have edges := Records.foldlM body t.successors
      (fun target => records_addEdge block.id target)
    -- first the header, then the instructions, then the edges, as the pass goes
    have whole := (header.bind instrs).bind edges
    rw [← List.map_eq_flatMap] at whole
    have found : (some t).toList.flatMap Terminator.successors = t.successors :=
      List.append_nil _
    rw [found]
    refine whole.congr fun facts => ?_
    unfold Facts.addBlock require
    rw [terminator]
    split
    · rfl
    · rfl

/-- The first pass succeeds exactly where the events of the body are in order. -/
theorem records_collect (body : Body) (unit : String) :
    Records body (fun facts => do
      let facts ← body.params.foldlM
        (fun facts param => atBlock unit 0 (facts.define param .param)) facts
      body.blocks.zipIdx.foldlM (fun facts (block, position) =>
        atBlock unit block.id (facts.addBlock body block position)) facts) (ofBody body) := by
  have params := Records.foldlM body body.params fun param =>
    (records_define param .param).mapError (VerifyError.atBlock unit 0)
  have blocks := Records.foldlM body body.blocks.zipIdx
    fun p : Block × Nat => (records_addBlock p.1 p.2).mapError (VerifyError.atBlock unit p.1.id)
  -- each parameter has one event
  rw [← List.map_eq_flatMap] at params
  exact params.bind blocks

theorem recorded_none (body : Body) : Recorded body (Facts.none body) [] := by
  refine ⟨Array.size_replicate, ?_, ?_, Array.size_replicate, ?_, ?_⟩
  · intro value site
    simp only [Facts.none, Array.getElem?_replicate, List.not_mem_nil, iff_false]
    split
    · exact fun h => nomatch h
    · exact fun h => nomatch h
  · intro slot
    simp only [Facts.none, List.not_mem_nil, exists_const]
  · intro target preds found
    simp only [Facts.none, Array.getElem?_replicate] at found
    split at found
    · cases found
      exact List.nodup_nil
    · cases found
  · intro target preds found source
    simp only [Facts.none, Array.getElem?_replicate] at found
    split at found
    · cases found
      simp only [List.not_mem_nil]
    · cases found

theorem inOrder_nil (body : Body) : InOrder body [] where
  headers _ _ _ h := absurd h List.not_mem_nil
  defined_nodup := List.nodup_nil
  defined_lt _ _ h := absurd h List.not_mem_nil
  allocated_nodup := List.nodup_nil
  allocated _ _ h := absurd h List.not_mem_nil
  targets _ _ h := absurd h List.not_mem_nil

/-- What the first pass finds out of a body, if its events are in order. -/
theorem recorded_of_collect {unit : String} {facts : Facts} (h : body.collect unit = .ok facts) :
    InOrder body (ofBody body) ∧ Recorded body facts (ofBody body) :=
  (records_collect body unit).ok (recorded_none body) (inOrder_nil body) h

/-- A body whose events are in order has facts. -/
theorem collect_of_inOrder (inOrder : InOrder body (ofBody body)) (unit : String) :
    ∃ facts, body.collect unit = .ok facts :=
  (records_collect body unit).total (recorded_none body) inOrder


end Event

end TwinLisp.Graph

import TwinLisp.Proofs.Graph.Flow

/-! Bodies under construction that are in order: whatever is added is defined, typed and in place. -/

namespace TwinLisp.Graph.Builder

variable {D : Known} {b b' : Builder} {p q : BlockId} {P : BlockId → Prop} {F : Fact → Prop}

/-- Values that can be read at the end of a block. -/
def Reads (D : Known) (b : Builder) (p : BlockId) (uses : List (ValueId × Ty)) : Prop :=
  ∀ use ∈ uses, b.Avail D p (.value use.1) ∧ b.types[use.1]? = some use.2

/-- The pairs of a phi are one for each block that leads to its own, and carry what can be read
where these end. -/
structure Joins (D : Known) (b : Builder) (p : BlockId) (incoming : List (BlockId × Operand)) :
    Prop where
  inner : p ≠ 0
  nodup : (incoming.map (·.1)).Nodup
  preds : ∀ q, q ∈ incoming.map (·.1) ↔ b.Leads q p
  reads : ∀ edge ∈ incoming, b.Reads D edge.1 edge.2.uses

/-- An instruction fits the block that it is in, after the instructions before. -/
structure Fits (D : Known) (b : Builder) (p : BlockId) (before : List Instr) (i : Instr) :
    Prop where
  uses : ∀ use ∈ i.uses, (D p (.value use.1) ∨ ∃ j ∈ before, Fact.value use.1 ∈ j.makes) ∧
    b.types[use.1]? = some use.2
  slot : ∀ slot, i.slot? = some slot → slot < b.slots.size
  noAlloca : i.allocated? = none
  result : ∀ v op, i = .define v op → b.arity ≤ v ∧ b.types[v]? = some op.ty ∧
    ∀ j ∈ before, j.result? ≠ some v
  phi : ∀ v incoming, i = .define v (.phi incoming) →
    (∀ j ∈ before, j.isPhi) ∧ Joins D b p incoming

/-- The blocks of a builder are in order, given what is known at their entries. -/
structure Valid (D : Known) (b : Builder) : Prop extends Flow D b where
  pos : 0 < b.size
  targets : ∀ p q, b.Leads p q → q < b.size
  params : ∀ v < b.arity, b.types[v]? = some .i64
  instrs : ∀ p (n : Nat) i, (b.instrsAt p)[n]? = some i → Fits D b p ((b.instrsAt p).take n) i
  ends : ∀ p t, b.endAt p = some t → b.Reads D p t.uses
  apart : ∀ p q v, p ≠ q → (∃ i ∈ b.instrsAt p, i.result? = some v) →
    ¬∃ i ∈ b.instrsAt q, i.result? = some v

/-- The steps of building keep what there is, and all that can be read where a block has ended. -/
structure Extends (D : Known) (b : Builder) (D' : Known) (b' : Builder) : Prop where
  arity : b'.arity = b.arity
  types : ∀ (v : Nat) ty, b.types[v]? = some ty → b'.types[v]? = some ty
  slots : b.slots.size ≤ b'.slots.size
  avail : ∀ p, b.endAt p ≠ none → ∀ f, b.Avail D p f → b'.Avail D' p f

theorem Reads.mono {D' : Known} {uses : List (ValueId × Ty)} (h : b.Reads D p uses)
    (types : ∀ (v : Nat) ty, b.types[v]? = some ty → b'.types[v]? = some ty)
    (avail : ∀ f, b.Avail D p f → b'.Avail D' q f) : b'.Reads D' q uses :=
  fun use mem => ⟨avail _ (h use mem).1, types _ _ (h use mem).2⟩

/-- An instruction goes on to fit when the body grows, but for a phi whose block gets new edges. -/
theorem Fits.mono {D' : Known} {before : List Instr} {i : Instr} (h : Fits D b p before i)
    (ext : Extends D b D' b') (known : ∀ f, D p f → D' p f)
    (leads : i.isPhi → ∀ q, b'.Leads q p ↔ b.Leads q p) : Fits D' b' p before i where
  uses use mem :=
    have found := h.uses use mem
    ⟨found.1.imp (known _) id, ext.types _ _ found.2⟩
  slot slot hi := Nat.lt_of_lt_of_le (h.slot slot hi) ext.slots
  noAlloca := h.noAlloca
  result v op hi :=
    have found := h.result v op hi
    ⟨ext.arity ▸ found.1, ext.types _ _ found.2.1, found.2.2⟩
  phi v incoming hi := by
    obtain ⟨leading, joins⟩ := h.phi v incoming hi
    refine ⟨leading, joins.inner, joins.nodup, fun q => ?_, fun edge mem => ?_⟩
    · rw [leads (by rw [hi]; rfl)]
      exact joins.preds q
    · -- the block that an edge comes from has been ended, and what was available there stays so
      obtain ⟨t, ended, -⟩ := (joins.preds edge.1).mp (List.mem_map_of_mem mem)
      have closed : b.endAt edge.1 ≠ none := by
        rw [ended]
        nofun
      exact (joins.reads edge mem).mono ext.types (ext.avail _ closed)

theorem types_push {v : ValueId} {ty : Ty} (ty' : Ty) (known : b.types[v]? = some ty) :
    (b.types.push ty')[v]? = some ty := by
  rw [Array.getElem?_push, if_neg (Nat.ne_of_lt (Array.getElem?_eq_some_iff.mp known).1), known]

/-- An edge is an old one, or one by which the current block has been ended. -/
theorem leads_terminate {t : Terminator} (leads : (b.terminate t).Leads p q) :
    b.Leads p q ∨ p = b.current ∧ q ∈ t.successors := by
  obtain ⟨t', ended, mem⟩ := leads
  rw [endAt_terminate] at ended
  split at ended
  next here =>
    cases ended
    exact .inr ⟨here.1, mem⟩
  next => exact .inl ⟨t', ended, mem⟩

theorem Leads.terminate (leads : b.Leads p q) (opened : b.Open) (t : Terminator) :
    (b.terminate t).Leads p q := by
  obtain ⟨t', ended, mem⟩ := leads
  refine ⟨t', ?_, mem⟩
  rw [endAt_terminate, if_neg, ended]
  rintro ⟨rfl, -⟩
  rw [opened.going] at ended
  cases ended

namespace Valid

variable (h : Valid D b)

include h

theorem arity_le : b.arity ≤ b.types.size := by
  refine Nat.not_lt.mp fun fewer => ?_
  obtain ⟨lt, -⟩ := Array.getElem?_eq_some_iff.mp (h.params _ fewer)
  exact Nat.lt_irrefl _ lt

/-- Values are numbered in the order in which they are defined. -/
theorem lt_of_result {v : ValueId} {i : Instr} (hi : i ∈ b.instrsAt p)
    (result : i.result? = some v) : v < b.types.size := by
  obtain ⟨n, hn⟩ := List.mem_iff_getElem?.mp hi
  have fits := h.instrs p n i hn
  cases i with
  | define dst op =>
    cases result
    exact (Array.getElem?_eq_some_iff.mp (fits.result v op rfl).2.1).1
  | _ => cases result

theorem positionAt (p : BlockId) : Valid D (b.positionAt p) :=
  { toFlow := h.toFlow.positionAt p
    pos := h.pos
    targets := h.targets
    params := h.params
    instrs := fun p n i hi => (h.instrs p n i hi).mono
      ⟨rfl, fun _ _ => id, Nat.le_refl _, fun _ _ _ => id⟩ (fun _ => id) fun _ _ => .rfl
    ends := h.ends
    apart := h.apart }

/-- A block that is added has no instruction and no edge. -/
theorem newBlock : Valid D b.newBlock.2 where
  toFlow := h.toFlow.newBlock
  pos := by
    rw [size_newBlock]
    exact Nat.succ_pos _
  targets p q leads := by
    rw [size_newBlock]
    exact Nat.lt_succ_of_lt (h.targets p q (leads_newBlock.mp leads))
  params := h.params
  -- the instructions are those from before, and so is what is available
  instrs p n i hi := by
    rw [instrsAt_newBlock] at hi ⊢
    refine (h.instrs p n i hi).mono ⟨rfl, fun _ _ => id, Nat.le_refl _, fun q _ f known => ?_⟩
      (fun _ => id) fun _ _ => leads_newBlock
    exact known.mono fun i hi => by rwa [instrsAt_newBlock]
  ends p t ended := by
    rw [endAt_newBlock] at ended
    exact (h.ends p t ended).mono (fun _ _ => id) fun f known =>
      known.mono fun i hi => by rwa [instrsAt_newBlock]
  apart p q v other := by
    rw [instrsAt_newBlock, instrsAt_newBlock]
    exact h.apart p q v other

theorem withTypes (ty : Ty) : Valid D { b with types := b.types.push ty } :=
  have types (v : Nat) (ty' : Ty) (known : b.types[v]? = some ty') :
      (b.types.push ty)[v]? = some ty' := types_push ty known
  { toFlow := h.toFlow.grow rfl (fun _ _ => id) fun _ _ => id
    pos := h.pos
    targets := h.targets
    params := fun v lt => types v _ (h.params v lt)
    instrs := fun p n i hi =>
      (h.instrs p n i hi).mono ⟨rfl, types, Nat.le_refl _, fun _ _ _ => id⟩ (fun _ => id)
        fun _ _ => .rfl
    ends := fun p t ended => (h.ends p t ended).mono types fun _ => id
    apart := h.apart }

theorem alloca (name : String) (frozen : Bool) : Valid D (b.alloca name frozen).2 where
  toFlow := h.toFlow.grow rfl (fun _ _ => id) fun _ _ => id
  pos := h.pos
  targets := h.targets
  params := h.params
  instrs p n i hi :=
    (h.instrs p n i hi).mono ⟨rfl, fun _ _ => id, by
      change b.slots.size ≤ (b.slots.push _).size
      rw [Array.size_push]
      exact Nat.le_succ _, fun _ _ _ => id⟩ (fun _ => id) fun _ _ => .rfl
  ends p t ended := (h.ends p t ended).mono (fun _ _ => id) fun _ => id
  apart := h.apart

/-- An instruction that fits is added at the end of the current block. -/
theorem push {i : Instr} (fits : Fits D b b.current (b.instrsAt b.current) i)
    (fresh : ∀ v, i.result? = some v → ∀ p, ¬∃ j ∈ b.instrsAt p, j.result? = some v) :
    Valid D (b.push i) where
  toFlow := h.toFlow.push i
  pos := by
    rw [size_push]
    exact h.pos
  targets p q leads := by
    rw [size_push]
    exact h.targets p q (leads_push.mp leads)
  params := h.params
  instrs p n j hj := by
    have ext : Extends D b D (b.push i) :=
      ⟨rfl, fun _ _ => id, Nat.le_refl _, fun _ _ _ known =>
        known.mono fun _ => mem_instrsAt_push_of_mem⟩
    -- the old instructions fit as before, since what is available has only grown
    rcases getElem?_instrsAt_push_cases hj with ⟨old, same⟩ | ⟨rfl, rfl, same⟩
    · rw [same]
      exact (h.instrs p n j old).mono ext (fun _ => id) fun _ _ => leads_push
    · rw [same]
      exact fits.mono ext (fun _ => id) fun _ _ => leads_push
  ends p t ended := by
    rw [endAt_push] at ended
    exact (h.ends p t ended).mono (fun _ _ => id) fun f known =>
      known.mono fun _ => mem_instrsAt_push_of_mem
  apart p q v other := by
    rintro ⟨j, hj, result⟩ ⟨k, hk, result'⟩
    rcases mem_or_last_of_push hj with old | ⟨same, here⟩
    · rcases mem_or_last_of_push hk with old' | ⟨same', -⟩
      · exact h.apart p q v other ⟨j, old, result⟩ ⟨k, old', result'⟩
      · exact fresh v (same' ▸ result') p ⟨j, old, result⟩
    · rcases mem_or_last_of_push hk with old' | ⟨-, there⟩
      · exact fresh v (same ▸ result) q ⟨k, old', result'⟩
      · exact other (here.trans there.symm)

/-- An operation that fits is added; its value is a fresh one. -/
theorem emit {operation : Operation}
    (uses : b.Reads D b.current operation.uses)
    (slot : ∀ slot, operation = .load slot → slot < b.slots.size)
    (phi : ∀ incoming, operation = .phi incoming →
      b.instrsAt b.current = [] ∧ b.Joins D b.current incoming) :
    Valid D (b.emit operation).2 := by
  have typed := h.withTypes operation.ty
  -- all results so far are below the number of values
  have fresh : ∀ p, ¬∃ j ∈ b.instrsAt p, j.result? = some b.types.size := by
    rintro p ⟨j, hj, result⟩
    exact Nat.lt_irrefl _ (h.lt_of_result hj result)
  -- the value that is defined is the next one, and it has the type of the operation
  refine typed.push (i := .define b.types.size operation) ⟨?_, ?_, rfl, ?_, ?_⟩ ?_
  · intro use mem
    obtain ⟨known, ty⟩ := uses use mem
    exact ⟨known, (types_push _ ty)⟩
  · intro s hs
    cases operation with
    | load slot' =>
      cases hs
      exact slot s rfl
    | _ => cases hs
  · intro v op same
    cases same
    refine ⟨h.arity_le, Array.getElem?_push_size, fun j hj result => ?_⟩
    exact fresh _ ⟨j, hj, result⟩
  · intro v incoming same
    cases same
    obtain ⟨empty, joins⟩ := phi incoming rfl
    refine ⟨fun j hj => ?_, joins.inner, joins.nodup, joins.preds, fun edge mem use hu => ?_⟩
    · change j ∈ b.instrsAt b.current at hj
      rw [empty] at hj
      exact absurd hj List.not_mem_nil
    · obtain ⟨known, ty⟩ := joins.reads edge mem use hu
      exact ⟨known, types_push _ ty⟩
  · intro v result p
    cases result
    exact fresh p

/-- A block is ended in order: it can be left for blocks without phis, where no more is known. -/
theorem terminate (opened : b.Open) {t : Terminator} (uses : b.Reads D b.current t.uses)
    (inside : ∀ q ∈ t.successors, q < b.size)
    (plain : ∀ q ∈ t.successors, ∀ i ∈ b.instrsAt q, i.isPhi = false)
    (known : ∀ q ∈ t.successors, ∀ f, D q f → b.Avail D b.current f) :
    Valid D (b.terminate t) where
  toFlow := h.toFlow.terminate known
  pos := by
    rw [size_terminate]
    exact h.pos
  targets p q leads := by
    rw [size_terminate]
    rcases leads_terminate leads with leads | ⟨-, mem⟩
    · exact h.targets p q leads
    · exact inside q mem
  params := h.params
  instrs p n i hi := by
    rw [instrsAt_terminate] at hi ⊢
    refine (h.instrs p n i hi).mono ⟨rfl, fun _ _ => id, Nat.le_refl _, fun q _ f => ?_⟩
      (fun _ => id) fun isPhi q => ⟨fun leads => ?_, fun leads => leads.terminate opened t⟩
    · exact fun known => known.mono fun i hi => by rwa [instrsAt_terminate]
    · rcases leads_terminate leads with leads | ⟨-, mem⟩
      · exact leads
      · -- a phi counts the edges to its block, and the new edges lead to blocks without phis
        rw [plain p mem i (List.mem_of_getElem? hi)] at isPhi
        cases isPhi
  ends p t' ended := by
    have same (uses' : List (ValueId × Ty)) (reads : b.Reads D p uses') :
        (b.terminate t).Reads D p uses' :=
      reads.mono (fun _ _ => id) fun f known => known.mono fun i hi => by rwa [instrsAt_terminate]
    rw [endAt_terminate] at ended
    split at ended
    next here =>
      cases ended
      exact same _ (here.1 ▸ uses)
    next => exact same _ (h.ends p t' ended)
  apart p q v other := by
    rw [instrsAt_terminate, instrsAt_terminate]
    exact h.apart p q v other

/-- What is known at blocks that wait may be chosen as long as nothing leads there. -/
theorem on (waits : ∀ q, P q → b.Idle q ∧ q ≠ 0 ∧ ∀ p, ¬b.Leads p q)
    (origin : ∀ v, F (.value v) → v < b.arity ∨ ∃ p, ∃ i ∈ b.instrsAt p, Fact.value v ∈ i.makes) :
    Valid (D.on P F) b where
  toFlow := h.toFlow.on waits origin
  pos := h.pos
  targets := h.targets
  params := h.params
  instrs p n i hi := by
    -- a block with an instruction in it does not wait
    have elsewhere : ¬P p := by
      intro here
      rw [(waits p here).1.empty] at hi
      cases hi
    refine (h.instrs p n i hi).mono ⟨rfl, fun _ _ => id, Nat.le_refl _, fun r ended f => ?_⟩
      (fun _ => (on_other elsewhere).mpr) fun _ _ => .rfl
    exact (avail_on_other fun here => ended (waits r here).1.going).mpr
  ends p t ended := by
    have elsewhere : ¬P p := by
      intro here
      rw [(waits p here).1.going] at ended
      cases ended
    exact (h.ends p t ended).mono (fun _ _ => id) fun _ => (avail_on_other elsewhere).mpr
  apart := h.apart

end Valid

end TwinLisp.Graph.Builder

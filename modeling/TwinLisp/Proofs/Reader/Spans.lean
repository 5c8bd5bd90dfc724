import Mathlib.Data.List.Infix
import TwinLisp.Proofs.Reader.Layout
import TwinLisp.Reader.Occurrence

/-!
Spans delimit their expressions. A node stands where its tokens do, from the first one to the last
one, and these tokens, cut out of the text, are read as the same node again.
-/

namespace TwinLisp.Reader

open Layout Scan

/-- The tokens are in order and do not overlap. -/
structure Ordered (ts : List Token) : Prop where
  apart : ts.Pairwise fun a b => a.span.stop ≤ b.span.start
  forward : ∀ t ∈ ts, t.span.start < t.span.stop

/-- The span reaches from where a token begins to where one ends, and no further token is outside. -/
structure Hull (ts : List Token) (span : Span) : Prop where
  covers : ∀ t ∈ ts, span.start ≤ t.span.start ∧ t.span.stop ≤ span.stop
  start : ∃ t ∈ ts, span.start = t.span.start
  stop : ∃ t ∈ ts, span.stop = t.span.stop

/-- The tokens of the expressions stand among these tokens, one behind the other. -/
inductive InOrder (mode : Mode) : List Token → List Expr → Prop
  | nil (ts : List Token) : InOrder mode ts []
  | cons (before : List Token) {us ts e es} (first : Derives mode us e) (rest : InOrder mode ts es) :
    InOrder mode (before ++ us ++ ts) (e :: es)

variable {mode : Mode} {ts us : List Token} {opening closing : Token} {a b : Span} {e c : Expr}
  {es program : List Expr}

/-- Tokens within ordered ones are ordered. -/
theorem Ordered.part (h : Ordered ts) (part : us <:+: ts) : Ordered us where
  apart := h.apart.sublist part.sublist
  forward t mem := h.forward t (part.subset mem)

theorem hull_singleton (t : Token) : Hull [t] t.span where
  covers u mem := by
    rw [List.mem_singleton.mp mem]
    exact ⟨Nat.le_refl _, Nat.le_refl _⟩
  start := ⟨t, List.mem_singleton_self t, rfl⟩
  stop := ⟨t, List.mem_singleton_self t, rfl⟩

theorem Hull.append (first : Hull ts a) (rest : Hull us b) : Hull (ts ++ us) (a.merge b) where
  covers t mem := by
    simp only [Span.merge]
    rcases List.mem_append.mp mem with mem | mem
    · have := first.covers t mem
      omega
    · have := rest.covers t mem
      omega
  start := by
    obtain ⟨t, memFirst, first⟩ := first.start
    obtain ⟨u, memRest, rest⟩ := rest.start
    rcases Nat.le_total a.start b.start with le | le
    · exact ⟨t, List.mem_append_left us memFirst, (Nat.min_eq_left le).trans first⟩
    · exact ⟨u, List.mem_append_right ts memRest, (Nat.min_eq_right le).trans rest⟩
  stop := by
    obtain ⟨t, memFirst, first⟩ := first.stop
    obtain ⟨u, memRest, rest⟩ := rest.stop
    rcases Nat.le_total a.stop b.stop with le | le
    · exact ⟨u, List.mem_append_right ts memRest, (Nat.max_eq_right le).trans rest⟩
    · exact ⟨t, List.mem_append_left us memFirst, (Nat.max_eq_left le).trans first⟩

/-- What stands between two tokens does not matter to where both of them stand. -/
theorem hull_between (ordered : Ordered (opening :: ts ++ [closing])) :
    Hull (opening :: ts ++ [closing]) (opening.span.merge closing.span) := by
  have ends := (hull_singleton opening).append (hull_singleton closing)
  have outer : ([opening] ++ [closing]).Sublist (opening :: ts ++ [closing]) :=
    .append (List.singleton_sublist.mpr List.mem_cons_self) (.refl [closing])
  obtain ⟨first, memFirst, start⟩ := ends.start
  obtain ⟨last, memLast, stop⟩ := ends.stop
  refine ⟨fun t mem => ?_, ⟨first, outer.subset memFirst, start⟩, ⟨last, outer.subset memLast, stop⟩⟩
  rw [List.cons_append] at mem ordered
  rcases List.mem_cons.mp mem with rfl | mem
  · exact ends.covers t List.mem_cons_self
  rcases List.mem_append.mp mem with inner | last
  · -- A token in between comes behind the first one and before the last one.
    have behind := List.rel_of_pairwise_cons ordered.apart mem
    have before := (List.pairwise_append.mp ordered.apart.of_cons).2.2 t inner closing
      (List.mem_singleton_self closing)
    have := ordered.forward opening List.mem_cons_self
    have := ordered.forward closing (by simp)
    simp only [Span.merge]
    omega
  · exact ends.covers t (List.mem_append_right [opening] last)

/-- First and last token determine the span. -/
theorem Hull.unique (h : Hull ts a) (h' : Hull ts b) : a = b := by
  have le {a b : Span} (h : Hull ts a) (h' : Hull ts b) : a.start ≤ b.start ∧ b.stop ≤ a.stop := by
    obtain ⟨t, mem, start⟩ := h'.start
    obtain ⟨u, mem', stop⟩ := h'.stop
    exact ⟨start ▸ (h.covers t mem).1, stop ▸ (h.covers u mem').2⟩
  have start := Nat.le_antisymm (le h h').1 (le h' h).1
  have stop := Nat.le_antisymm (le h' h).2 (le h h').2
  cases a
  cases b
  exact congrArg₂ Span.mk start stop

/-- An expression stands where its tokens do. -/
theorem Derives.hull : ∀ {mode : Mode} {ts : List Token} {e : Expr}, Derives mode ts e → Ordered ts →
    Hull ts e.span
  | _, _, _, .int _, _ => hull_singleton _
  | _, _, _, .str _, _ => hull_singleton _
  | _, _, _, .ident _, _ => hull_singleton _
  | _, _, _, @Derives.quoted _ mark ts _ _ datum, ordered =>
    (hull_singleton mark).append (datum.hull (ordered.part (List.suffix_cons mark ts).isInfix))
  | _, _, _, .list .., ordered => hull_between ordered
  | _, _, _, .letIn .., ordered => hull_between ordered
  | _, _, _, .longQuoted .., ordered => hull_between ordered

/-- Expressions whose tokens come one behind the other are apart. -/
theorem Hull.apart (h : Hull ts a) (h' : Hull us b)
    (apart : ∀ t ∈ ts, ∀ u ∈ us, t.span.stop ≤ u.span.start) : a.stop ≤ b.start := by
  obtain ⟨t, mem, stop⟩ := h.stop
  obtain ⟨u, mem', start⟩ := h'.start
  exact stop ▸ start ▸ apart t mem u mem'

theorem InOrder.append {es' : List Expr} (h : InOrder mode ts es) (h' : InOrder mode us es') :
    InOrder mode (ts ++ us) (es ++ es') := by
  induction h with
  | @nil ts =>
    cases h' with
    | nil => exact .nil _
    | cons before first rest =>
      rw [← List.append_assoc, ← List.append_assoc]
      exact .cons _ first rest
  | cons before first _ ih =>
    rw [List.append_assoc]
    exact .cons before first ih

theorem InOrder.behind (h : InOrder mode ts es) (xs : List Token) : InOrder mode (xs ++ ts) es :=
  InOrder.append (.nil xs) h

theorem InOrder.ahead (h : InOrder mode ts es) (xs : List Token) : InOrder mode (ts ++ xs) es := by
  have whole := h.append (.nil xs)
  rwa [List.append_nil] at whole

theorem DerivesAll.inOrder (h : DerivesAll mode ts es) : InOrder mode ts es := by
  induction es generalizing ts with
  | nil =>
    cases h
    exact .nil []
  | cons e es ih =>
    cases h with
    | cons first rest => exact .cons [] first (ih rest)

theorem Derives.inOrder_singleton (h : Derives mode ts e) : InOrder mode ts [e] :=
  (DerivesAll.singleton h).inOrder

theorem DerivesBindings.inOrder {bindings : List (LetBinding Expr)} (h : DerivesBindings ts bindings) :
    InOrder .code ts (bindings.map (·.init)) := by
  induction bindings generalizing ts with
  | nil =>
    cases h
    exact .nil []
  | cons b bindings ih =>
    cases h with
    | @cons opening word _ _ _ closing _ _ _ _ value _ rest =>
      exact .cons [opening, word] value ((ih rest).behind [closing])

/-- The tokens of the nodes directly below a node are among its own. -/
theorem Derives.inOrder_children (h : Derives mode ts e) : InOrder (mode.below e) ts e.children := by
  cases h with
  | int | str | ident => exact .nil _
  | @quoted _ mark _ _ _ datum => exact datum.inOrder_singleton.behind [mark]
  | @list _ opening _ _ closing _ _ items _ => exact (items.inOrder.behind [opening]).ahead [closing]
  | @letIn opening head opening' ts _ closing' us _ closing _ _ _ bound _ body _ _ =>
    have inner := bound.inOrder.append (body.inOrder.behind [closing'])
    exact (inner.behind [opening, head, opening']).ahead [closing]
  | @longQuoted opening head _ _ closing _ _ datum _ =>
    exact (datum.inOrder_singleton.behind [opening, head]).ahead [closing]

/-- A node has tokens of its own among those of the whole. -/
theorem InOrder.exists_tokens (h : InOrder mode ts es) (mem : e ∈ es) :
    ∃ us, us <:+: ts ∧ Derives mode us e := by
  induction h with
  | nil => cases mem
  | @cons before us ts _ _ first _ ih =>
    rcases List.mem_cons.mp mem with rfl | mem
    · exact ⟨us, ⟨before, ts, rfl⟩, first⟩
    · obtain ⟨vs, part, derived⟩ := ih mem
      exact ⟨vs, part.trans (List.suffix_append _ ts).isInfix, derived⟩

/-- Expressions whose tokens stand in order stand in order themselves. -/
theorem InOrder.pairwise (h : InOrder mode ts es) (ordered : Ordered ts) :
    es.Pairwise fun c c' => c.span.stop ≤ c'.span.start := by
  induction h with
  | nil => exact .nil
  | @cons before us ts e es first rest ih =>
    refine .cons (fun c mem => ?_) (ih (ordered.part (List.suffix_append _ ts).isInfix))
    -- The tokens of each later expression are behind all of the first one's.
    obtain ⟨vs, part, derived⟩ := rest.exists_tokens mem
    have ahead := (List.pairwise_append.mp ordered.apart).2.2
    refine (first.hull (ordered.part ⟨before, ts, rfl⟩)).apart
      (derived.hull (ordered.part (part.trans (List.suffix_append _ ts).isInfix))) fun t mem u mem' => ?_
    exact ahead t (List.mem_append_right before mem) u (part.subset mem')

/-- A node stands inside the one that it is directly below. -/
theorem Derives.covers (h : Derives mode ts e) (ordered : Ordered ts) (mem : c ∈ e.children) :
    e.span.start ≤ c.span.start ∧ c.span.stop ≤ e.span.stop := by
  obtain ⟨us, part, derived⟩ := h.inOrder_children.exists_tokens mem
  have inner := derived.hull (ordered.part part)
  have outer := h.hull ordered
  obtain ⟨t, memFirst, start⟩ := inner.start
  obtain ⟨u, memLast, stop⟩ := inner.stop
  rw [start, stop]
  exact ⟨(outer.covers t (part.subset memFirst)).1, (outer.covers u (part.subset memLast)).2⟩

/-- Every node of a program has its tokens among those of the program. -/
theorem Occurs.exists_tokens (derived : DerivesAll .code ts program) (node : Occurs program mode e) :
    ∃ us, us <:+: ts ∧ Derives mode us e := by
  induction node with
  | root mem => exact derived.inOrder.exists_tokens mem
  | child _ mem ih =>
    obtain ⟨us, part, above⟩ := ih
    obtain ⟨vs, part', below⟩ := above.inOrder_children.exists_tokens mem
    exact ⟨vs, part'.trans part, below⟩

theorem ordered_place {offset : Nat} {pieces : List Piece}
    (inRange : offset + width (text pieces) < 2 ^ 32) : Ordered (place .mk offset pieces) where
  apart := place_exact inRange ▸ pairwise_place
  forward _ mem := start_lt_stop mem

theorem width_text_cons (p : Piece) (ps : List Piece) :
    width (text (p :: ps)) = width p.gap + width p.word + width (text ps) := by
  rw [text_cons, width_append, width_append]

/-- Pieces stand from behind the first gap to the end of their text. -/
theorem hull_place (offset : Nat) (p : Piece) (ps : List Piece) :
    Hull (place .mk offset (p :: ps)) ⟨offset + width p.gap, offset + width (text (p :: ps))⟩ := by
  induction ps generalizing offset p with
  | nil =>
    have size : width (text [p]) = width p.gap + width p.word := width_text_cons p []
    rw [size, ← Nat.add_assoc]
    exact hull_singleton _
  | cons q ps ih =>
    let start := offset + width p.gap
    let stop := start + width p.word
    have whole := (hull_singleton ⟨p.lexeme, ⟨start, stop⟩⟩).append (ih stop q)
    have size := width_text_cons p (q :: ps)
    have behind := width_text_cons q ps
    -- first and last piece give the span of all
    have merged : Span.merge ⟨start, stop⟩ ⟨stop + width q.gap, stop + width (text (q :: ps))⟩
        = ⟨start, offset + width (text (p :: q :: ps))⟩ := by
      simp only [Span.merge, Span.mk.injEq, start, stop]
      omega
    rwa [merged] at whole

/-- The datum of a quotation stands behind its first token. -/
theorem Derives.start_lt {d : Expr} {style : QuoteStyle} {span : Span}
    (h : Derives mode ts (.quote d style span)) (ordered : Ordered ts) : span.start < d.span.start := by
  cases h with
  | @quoted _ mark ts _ _ datum =>
    have inner := datum.hull (ordered.part (List.suffix_cons mark ts).isInfix)
    have apart := (hull_singleton mark).apart inner fun t mem =>
      List.mem_singleton.mp mem ▸ fun u => List.rel_of_pairwise_cons ordered.apart
    have := ordered.forward mark List.mem_cons_self
    simp only [Span.merge]
    omega
  -- here the word stands between the parenthesis and the datum as well
  | @longQuoted opening head ts _ closing _ _ datum _ =>
    have inner := datum.hull (ordered.part ⟨[opening, head], [closing], rfl⟩)
    have apart := (hull_singleton opening).apart inner fun t mem =>
      List.mem_singleton.mp mem ▸ fun u mem' => List.rel_of_pairwise_cons ordered.apart
        (List.mem_append_left [closing] (List.mem_cons_of_mem head mem'))
    have := ordered.forward opening List.mem_cons_self
    simp only [Span.merge]
    omega

/-- Data stands behind an apostrophe or a `quote`. -/
theorem Occurs.start_pos (derived : DerivesAll .code ts program) (ordered : Ordered ts)
    (node : Occurs program mode e) (data : mode = .datum) : 0 < e.span.start := by
  induction node with
  | root => cases data
  | @child mode parent e above mem ih =>
    obtain ⟨us, part, derives⟩ := above.exists_tokens derived
    cases mode with
    | datum => exact Nat.lt_of_lt_of_le (ih rfl) (derives.covers (ordered.part part) mem).1
    | code =>
      -- In code only a quotation has data directly below it.
      cases parent with
      | quote d style span =>
        rw [List.mem_singleton.mp mem]
        exact Nat.zero_lt_of_lt (derives.start_lt (ordered.part part))
      | _ => cases data

/-- The pieces of some of the tokens, without the gap before the first of them. -/
theorem exists_slice {pieces : List Piece} {trailing : List Char} (maximal : Maximal pieces trailing)
    (part : us <:+: place .mk 0 pieces) (nonempty : us ≠ []) :
    ∃ p ps before after, p.gap = [] ∧ text pieces = before ++ text (p :: ps) ++ after ∧
      Maximal (p :: ps) [] ∧ us = place .mk (width before) (p :: ps) := by
  obtain ⟨xs, ys, split⟩ := part
  obtain ⟨ahead, behind, rfl, placed⟩ := place_eq_append split.symm
  obtain ⟨ps, qs, rfl, rfl⟩ := place_eq_append placed
  rw [place_append] at placed
  have tokens := List.append_cancel_left placed
  cases qs with
  | nil => exact absurd tokens.symm nonempty
  | cons q qs =>
    -- the slice begins with its first word, without the gap before it
    let p : Piece := { q with gap := [], skipped := .nil }
    have gapped : q :: qs = indent q.gap q.skipped (p :: qs) := by
      simp [indent, p]
    refine ⟨p, qs, text ps ++ q.gap, text behind, rfl, ?_, ?_, ?_⟩
    · rw [text_append, text_append, gapped, text_indent q.skipped (List.cons_ne_nil p qs)]
      simp
    · have inner := (maximal_append.mp (maximal_append.mp maximal).1).2
      rw [gapped, maximal_indent] at inner
      exact inner.follow (by simp)
    · rw [← tokens, gapped, place_indent, width_append, Nat.zero_add]

/-- The text of the tokens of an expression is read as that expression. -/
theorem readsAs_code {p : Piece} {ps : List Piece} (maximal : Maximal (p :: ps) [])
    (derives : Derives .code (place .mk 0 (p :: ps)) e) (small : width (text (p :: ps)) < 2 ^ 32) :
    ReadsAs (String.ofList (text (p :: ps))) e .code := by
  refine (read_ok_iff ?_).mpr ⟨p :: ps, [], ?_, .gap .nil, maximal, .singleton derives⟩
  · rwa [utf8ByteSize_ofList]
  · rw [String.toList_ofList, List.append_nil]

/-- Behind an apostrophe the text of the tokens of a datum is read as that datum. -/
theorem readsAs_datum {p : Piece} {ps : List Piece} (bare : p.gap = []) (maximal : Maximal (p :: ps) [])
    (derives : Derives .datum (place .mk 0 (p :: ps)) e) (small : width (text (p :: ps)) + 1 < 2 ^ 32) :
    ReadsAs (String.ofList (text (p :: ps))) e .datum := by
  -- a datum is read behind an apostrophe, one byte wide
  let mark : Piece := .of [] .nil .quoteMark trivial
  have quotedMaximal : Maximal (mark :: p :: ps) [] := maximal_cons.mpr
    ⟨fun taken => length_le_of_single (by decide) (by decide), maximal⟩
  have datum := derives.shift 1
  rw [← place_shift, Nat.zero_add] at datum
  have stands : (e.shift 1).span = ⟨1, width (text (p :: ps)) + 1⟩ := by
    have hull := hull_place 1 p ps
    rw [bare, width_nil, Nat.add_zero, Nat.add_comm 1] at hull
    exact (datum.hull (ordered_place (by omega))).unique hull
  unfold ReadsAs
  refine (read_ok_iff ?_).mpr ⟨mark :: p :: ps, [], ?_, .gap .nil, quotedMaximal, .singleton ?_⟩
  · rw [String.utf8ByteSize_append, utf8ByteSize_ofList (text (p :: ps)), Nat.add_comm]
    exact small
  · simp [text_cons, mark, Piece.of, Lexeme.written, apostrophe]
  · have whole : Span.merge ⟨0, 1⟩ (e.shift 1).span = ⟨0, width (text (p :: ps)) + 1⟩ := by
      rw [stands]
      simp only [Span.merge, Span.mk.injEq]
      omega
    rw [utf8ByteSize_ofList, ← whole]
    exact .quoted rfl datum

/-- Spans delimit their expressions. A node of a program covers those directly below it, which stand in
order and do not overlap; and the text at its span, which begins and ends between two characters, is read
as this node again, without what is before it. -/
theorem spans_delimit {source : String} (small : source.utf8ByteSize < 2 ^ 32)
    (read : read source = .ok program) (node : Occurs program mode e) :
    (∀ c ∈ e.children, e.span.start ≤ c.span.start ∧ c.span.stop ≤ e.span.stop) ∧
      e.children.Pairwise (fun c c' => c.span.stop ≤ c'.span.start) ∧
      ∃ slice tree, e.span.Delimits source slice ∧ tree.shift e.span.start = e ∧
        ReadsAs slice tree mode := by
  obtain ⟨pieces, trailing, split, ended, maximal, derived⟩ := (read_ok_iff small).mp read
  have ordered := ordered_place (inRange_of_size split small)
  obtain ⟨us, part, derives⟩ := node.exists_tokens derived
  have inside := ordered.part part
  refine ⟨fun c => derives.covers inside, derives.inOrder_children.pairwise inside, ?_⟩
  obtain ⟨p, ps, before, after, bare, here, maximal', rfl⟩ := exists_slice maximal part derives.ne_nil
  have stands : e.span = ⟨width before, width before + width (text (p :: ps))⟩ := by
    have hull := hull_place (width before) p ps
    rw [bare, width_nil, Nat.add_zero] at hull
    exact (derives.hull inside).unique hull
  -- a slice read on its own begins at offset zero
  have moved := place_shift (width before) 0 (p :: ps)
  rw [Nat.zero_add] at moved
  -- The node's own tokens derive it at its own place, hence also at the start of a text.
  obtain ⟨tree, own, same⟩ := Derives.of_shift (moved ▸ derives)
  have whole : source = String.ofList before ++ String.ofList (text (p :: ps))
      ++ String.ofList (after ++ trailing) := by
    apply String.toList_injective
    simp [split, here]
  refine ⟨String.ofList (text (p :: ps)), tree, ⟨_, _, whole, ?_, ?_⟩, ?_, ?_⟩
  · rw [stands, utf8ByteSize_ofList]
  · rw [stands, String.utf8ByteSize_append, utf8ByteSize_ofList, utf8ByteSize_ofList]
  · rw [stands]
    exact same
  · -- The apostrophe before a datum fits in, as the source has one more character before it.
    have pos := node.start_pos derived ordered
    rw [stands] at pos
    rw [← width_toList, split, here] at small
    simp only [width_append] at small
    cases mode with
    | code => exact readsAs_code maximal' own (by omega)
    | datum =>
      have room : 0 < width before := pos rfl
      exact readsAs_datum bare maximal' own (by omega)

/-- In quoted data `(let)` is a list; on its own it would be refused. -/
theorem spans_delimit_datum :
    let e : Expr := .list [.ident "a" ⟨8, 9⟩, .list [.ident "let" ⟨11, 14⟩] ⟨10, 15⟩] ⟨7, 16⟩
    let program : List Expr :=
      [.ident "λ" ⟨0, 2⟩, .list [.ident "f" ⟨4, 5⟩, .quote e .short ⟨6, 16⟩] ⟨3, 17⟩]
    read "λ (f '(a (let)))" = .ok program ∧ Occurs program .datum e ∧
      (∀ c ∈ e.children, 7 ≤ c.span.start ∧ c.span.stop ≤ 16) ∧
      e.children.Pairwise (fun c c' => c.span.stop ≤ c'.span.start) ∧
      ∃ slice tree, e.span.Delimits "λ (f '(a (let)))" slice ∧ tree.shift 7 = e ∧
        ReadsAs slice tree .datum := by
  intro e program
  have read : read "λ (f '(a (let)))" = .ok program := by rfl
  -- down to the datum: the list, the quotation, and what it quotes
  have listed : Occurs program .code (.list [.ident "f" ⟨4, 5⟩, .quote e .short ⟨6, 16⟩] ⟨3, 17⟩) :=
    .root (by simp [program])
  have quoted : Occurs program .code (.quote e .short ⟨6, 16⟩) :=
    .child listed (by simp [Expr.children])
  have node : Occurs program .datum e := .child quoted (List.mem_singleton_self e)
  exact ⟨read, node, spans_delimit (by decide) read node⟩

end TwinLisp.Reader

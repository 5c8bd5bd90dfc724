import TwinLisp.Proofs.Graph.Finish
import TwinLisp.Proofs.Lowering.Result

/-!
Lowered modules are well-formed up to the functions that they call: verification can only complain
about a second `main`, a function without a body, or a wrong number of arguments.
-/

namespace TwinLisp.Graph

open Checker

/-- The first name that is met twice is the one that is reported. -/
theorem checkDistinct_duplicate {seen names : List String} {name : String} (mem : name ∈ names)
    (old : name ∈ seen) (nodup : names.Nodup) (apart : ∀ other ∈ names, other ∈ seen → other = name) :
    (checkDistinct seen names : Except VerifyError Unit) = .error (.duplicateUnit name) := by
  induction names generalizing seen with
  | nil => exact absurd mem List.not_mem_nil
  | cons first rest ih =>
    obtain ⟨unseen, nodup⟩ := List.nodup_cons.mp nodup
    unfold checkDistinct
    -- either this is the name that is there twice, or the check goes on behind it
    by_cases here : first ∈ seen
    · cases apart first List.mem_cons_self here
      have fails : (!seen.contains name) = false := by simpa using old
      rw [fails]
      rfl
    · have passes : (!seen.contains first) = true := by simpa using here
      rw [passes]
      have later : name ∈ rest := (List.mem_cons.mp mem).resolve_left fun same => here (same ▸ old)
      refine ih later (List.mem_cons_of_mem _ old) nodup fun other mem' hseen => ?_
      rcases List.mem_cons.mp hseen with rfl | hseen
      · exact absurd mem' unseen
      · exact apart other (List.mem_cons_of_mem _ mem') hseen

namespace Lowering.Result

variable {M : List Mention} {m : Module} (r : Result M m)

include r

/-- The unit `main` comes first, and the other units differ in name. -/
theorem units_eq : ∃ x rest, m.units.toList = x :: rest ∧ x.name = "main" ∧
    (rest.map (·.name)).Nodup := by
  obtain ⟨x, hx, named, -⟩ := r.entry
  rw [← Array.getElem?_toList] at hx
  cases listed : m.units.toList with
  | nil =>
    rw [listed] at hx
    cases hx
  | cons first rest =>
    rw [listed] at hx
    cases hx
    refine ⟨x, rest, rfl, named, ?_⟩
    -- two units behind the first with one name have one position
    refine List.pairwise_map.mpr (List.pairwise_iff_getElem.mpr fun i j hi hj lt same => ?_)
    have unit {k : Nat} (hk : k < rest.length) : m.units[k + 1]? = some rest[k] := by
      rw [← Array.getElem?_toList, listed, List.getElem?_cons_succ, List.getElem?_eq_getElem hk]
    have equal := r.distinct _ _ _ _ (unit hi) (unit hj) (Nat.succ_ne_zero i) (Nat.succ_ne_zero j) same
    exact Nat.ne_of_lt lt (Nat.succ.inj equal)

omit r in
/-- The units behind the first are those of a position that is not zero. -/
theorem mem_rest {x : CodeUnit} {rest : List CodeUnit} (listed : m.units.toList = x :: rest)
    {y : CodeUnit} : y ∈ rest ↔ ∃ (j : Nat), j ≠ 0 ∧ m.units[j]? = some y := by
  have unit (k : Nat) : m.units[k + 1]? = rest[k]? := by
    rw [← Array.getElem?_toList, listed, List.getElem?_cons_succ]
  rw [List.mem_iff_getElem?]
  constructor
  · rintro ⟨k, hk⟩
    exact ⟨k + 1, Nat.succ_ne_zero k, (unit k).trans hk⟩
  · rintro ⟨j, nonzero, hj⟩
    obtain ⟨k, rfl⟩ := Nat.exists_eq_succ_of_ne_zero nonzero
    exact ⟨k, (unit k).symm.trans hj⟩

/-- A name that is mentioned is that of a unit besides `main`. -/
theorem unit_of_mention {mention : Mention} (mem : mention ∈ M) :
    ∃ (j : Nat) (x : CodeUnit), j ≠ 0 ∧ m.units[j]? = some x ∧ x.name = mention.name := by
  have done := r.done mention mem
  cases mention with
  | call name arity =>
    obtain ⟨dst, u, args, x, has, -, hx, named⟩ := done
    exact ⟨u, x, ((r.code _ has).call dst u args rfl).1, hx, named⟩
  | defun name arity =>
    obtain ⟨j, x, nonzero, hx, named, -⟩ := done
    exact ⟨j, x, nonzero, hx, named⟩

theorem main_lt : m.main < m.units.size := by
  obtain ⟨x, hx, -⟩ := r.entry
  rw [r.main]
  exact (Array.getElem?_eq_some_iff.mp hx).1

/-- A second `main` is found before anything else. -/
theorem verify_of_namesMain (h : Mention.NamesMain M) :
    m.verify = .error (.duplicateUnit "main") := by
  obtain ⟨mention, mem, named⟩ := h
  obtain ⟨x, rest, listed, first, nodup⟩ := r.units_eq
  obtain ⟨j, y, nonzero, hy, same⟩ := r.unit_of_mention mem
  have again : "main" ∈ rest.map (·.name) :=
    List.mem_map.mpr ⟨y, (mem_rest listed).mpr ⟨j, nonzero, hy⟩, same.trans named⟩
  -- `main` is the first name, and this unit bears it again
  have duplicate : (checkDistinct ["main"] (rest.map (·.name)) : Except VerifyError Unit)
      = .error (.duplicateUnit "main") :=
    checkDistinct_duplicate again List.mem_cons_self nodup fun other _ seen =>
      List.mem_singleton.mp seen
  have distinct : (checkDistinct [] (m.units.toList.map (·.name)) : Except VerifyError Unit)
      = .error (.duplicateUnit "main") := by
    rw [listed, List.map_cons, first]
    exact duplicate
  unfold Module.verify
  rw [distinct, require, if_pos (decide_eq_true r.main_lt)]
  rfl

theorem names_nodup (h : ¬Mention.NamesMain M) : (m.units.toList.map (·.name)).Nodup := by
  obtain ⟨x, rest, listed, first, nodup⟩ := r.units_eq
  rw [listed, List.map_cons, List.nodup_cons]
  refine ⟨fun mem => ?_, nodup⟩
  obtain ⟨y, hy, same⟩ := List.mem_map.mp mem
  obtain ⟨j, nonzero, hj⟩ := (mem_rest listed).mp hy
  obtain ⟨mention, hm, named⟩ := r.units j y hj nonzero
  exact h ⟨mention, hm, named.trans (same.trans first)⟩

/-- The bodies are well-formed up to calls. -/
theorem wellFormedButCalls {x : CodeUnit} (mem : x ∈ m.units.toList) {body : Body}
    (hbody : x.body = some body) : body.WellFormedButCalls m x.arity := by
  obtain ⟨j, hj⟩ := List.mem_iff_getElem?.mp mem
  rw [Array.getElem?_toList] at hj
  obtain ⟨⟨D, b, valid, ended, rfl⟩, params⟩ := r.bodies j x body hj hbody
  have has {k : Block} (hk : k ∈ b.finish.blocks) {i : Instr} (hi : i ∈ k.instrs) :
      Mentioned M m i := r.code i ⟨j, x, _, k, hj, hbody, hk, hi⟩
  have arity : b.arity = x.arity := List.length_range.symm.trans params
  rw [← arity]
  refine valid.wellFormedButCalls ended (fun k hk i hi dst callee args same => ?_)
    fun k hk i hi string same => (has hk hi).string string (by rw [same]; rfl)
  obtain ⟨-, y, hy, -⟩ := (has hk hi).call dst callee args same
  exact (Array.getElem?_eq_some_iff.mp hy).1

/-- A function that is defined has a body. -/
theorem isSome_of_defined {j : Nat} {x : CodeUnit} (hx : m.units[j]? = some x) (nonzero : j ≠ 0)
    {arity : Nat} (defined : .defun x.name arity ∈ M) : x.body.isSome := by
  obtain ⟨i, y, nonzero', hy, named, -, hbody⟩ := r.done _ defined
  cases r.distinct i j y x hy hx nonzero' nonzero named
  cases hy.symm.trans hx
  exact hbody

theorem failsOnly_verify (h : ¬Mention.NamesMain M) : FailsOnly VerifyError.IsLink m.verify := by
  refine FailsOnly.bind (failsOnly_of_ok (Event.require_ok_iff.mpr ?_)) fun _ _ => ?_
  · exact decide_eq_true r.main_lt
  refine FailsOnly.bind (failsOnly_of_ok (checkDistinct_ok_iff.mpr ?_)) fun _ _ => ?_
  · exact ⟨r.names_nodup h, fun _ _ => List.not_mem_nil⟩
  exact FailsOnly.forM fun x mem => failsOnly_verifyUnit fun body => r.wellFormedButCalls mem

/-- Every unit has a body, if all functions are defined that are called. -/
theorem isSome_body (defined : ¬Mention.Undefined M) {x : CodeUnit} (mem : x ∈ m.units.toList) :
    x.body.isSome := by
  obtain ⟨j, hx⟩ := List.mem_iff_getElem?.mp mem
  rw [Array.getElem?_toList] at hx
  -- `main` is always finished
  by_cases first : j = 0
  · subst first
    obtain ⟨y, hy, -, hbody⟩ := r.entry
    cases hx.symm.trans hy
    exact hbody
  · obtain ⟨mention, hm, named⟩ := r.units j x hx first
    cases mention with
    | call name arity =>
      have named : x.name = name := named.symm
      -- a callee that is defined nowhere is what `Undefined` says
      refine Decidable.byContradiction fun hollow => defined ⟨name, arity, hm, fun n known => ?_⟩
      exact hollow (r.isSome_of_defined hx first (named.symm ▸ known))
    | defun name arity =>
      have named : x.name = name := named.symm
      exact r.isSome_of_defined hx first (named.symm ▸ hm)

/-- Verification succeeds exactly where calls fit. -/
theorem verify_ok_iff (h : ¬Mention.NamesMain M) :
    m.verify = .ok ⟨⟩ ↔ ¬Mention.Undefined M ∧ ¬m.Miscalls := by
  rw [verify_ok_iff_checks]
  constructor
  · rintro ⟨-, -, units⟩
    constructor
    · rintro ⟨name, arity, called, undefined⟩
      obtain ⟨dst, u, args, x, has, -, hx, named⟩ := r.done _ called
      -- the unit that is called has a body, so that it is defined somewhere
      have nonzero := ((r.code _ has).call dst u args rfl).1
      obtain ⟨body, hbody, -⟩ := units x (List.mem_of_getElem? (Array.getElem?_toList ▸ hx))
      obtain ⟨n, defined⟩ := r.defined u x hx nonzero (hbody ▸ rfl)
      exact undefined n (named ▸ defined)
    · -- a call in an accepted body has the arity of its unit
      rintro ⟨dst, callee, args, y, ⟨j, x, body, k, hx, hbody, hk, hi⟩, hy, differs⟩
      obtain ⟨body', hbody', wellFormed⟩ :=
        units x (List.mem_of_getElem? (Array.getElem?_toList ▸ hx))
      cases hbody.symm.trans hbody'
      obtain ⟨p, hp⟩ := List.mem_iff_getElem?.mp hk
      obtain ⟨n, hn⟩ := List.mem_iff_getElem?.mp hi
      have found := Body.instrAt?_eq_some_iff.mpr ⟨k, hp, hn⟩
      obtain ⟨z, hz, arity⟩ := (wellFormed.instrs p n _ found).call dst callee args rfl
      cases hy.symm.trans hz
      exact differs arity
  · -- lowering has settled all but two clauses of well-formedness: bodies and the arities of calls
    rintro ⟨defined, fits⟩
    refine ⟨r.main_lt, r.names_nodup h, fun x mem => ?_⟩
    obtain ⟨body, hbody⟩ := Option.isSome_iff_exists.mp (r.isSome_body defined mem)
    refine ⟨body, hbody, (r.wellFormedButCalls mem hbody).wellFormed ?_⟩
    intro position index dst callee args found
    obtain ⟨k, hk, hi⟩ := Body.instrAt?_eq_some_iff.mp found
    obtain ⟨j, hj⟩ := List.mem_iff_getElem?.mp mem
    rw [Array.getElem?_toList] at hj
    -- the unit of the callee is there anyway, and the number of arguments is right by assumption
    have has : m.Has (.define dst (.call callee args)) :=
      ⟨j, x, body, k, hj, hbody, List.mem_of_getElem? hk, List.mem_of_getElem? hi⟩
    obtain ⟨-, y, hy, -⟩ := (r.code _ has).call dst callee args rfl
    refine ⟨y, hy, Decidable.byContradiction fun differs => ?_⟩
    exact fits ⟨dst, callee, args, y, has, hy, differs⟩

/-- A unit of a name that is mentioned is the one that is there for the mention. -/
theorem arity_of_defun {j : Nat} {x : CodeUnit} (hx : m.units[j]? = some x) (nonzero : j ≠ 0)
    {arity : Nat} (defined : .defun x.name arity ∈ M) : x.arity = arity := by
  obtain ⟨i, y, nonzero', hy, named, fits, -⟩ := r.done _ defined
  cases r.distinct i j y x hy hx nonzero' nonzero named
  cases hy.symm.trans hx
  exact fits

/-- Whether a module is verified depends on nothing but the functions that its program mentions. -/
theorem verify_ok_iff_linked : m.verify = .ok ⟨⟩ ↔ Mention.Linked M := by
  constructor
  · intro verified
    have noMain : ¬Mention.NamesMain M := by
      intro named
      rw [r.verify_of_namesMain named] at verified
      cases verified
    obtain ⟨defined, fits⟩ := (r.verify_ok_iff noMain).mp verified
    -- every mention agrees with the unit of its name
    have settled (mention : Mention) (mem : mention ∈ M) : ∃ (j : Nat) (x : CodeUnit), j ≠ 0 ∧
        m.units[j]? = some x ∧ x.name = mention.name ∧ x.arity = mention.arity := by
      have done := r.done mention mem
      cases mention with
      | call name arity =>
        obtain ⟨dst, u, args, x, has, same, hx, named⟩ := done
        refine ⟨u, x, ((r.code _ has).call dst u args rfl).1, hx, named, ?_⟩
        refine (Decidable.byContradiction fun differs => ?_ : x.arity = args.length).trans same
        exact fits ⟨dst, u, args, x, has, hx, differs⟩
      | defun name arity =>
        obtain ⟨j, x, nonzero, hx, named, same, -⟩ := done
        exact ⟨j, x, nonzero, hx, named, same⟩
    -- mentions of one name are about one unit, hence of one arity
    refine ⟨noMain, defined, fun mention mem other mem' same => ?_⟩
    obtain ⟨i, x, hi, hx, named, arity⟩ := settled mention mem
    obtain ⟨j, y, hj, hy, named', arity'⟩ := settled other mem'
    cases r.distinct i j x y hx hy hi hj (named.trans (same.trans named'.symm))
    cases hx.symm.trans hy
    exact arity.symm.trans arity'
  · rintro ⟨noMain, defined, agree⟩
    -- the callee is defined somewhere, with the arity of every mention of it
    refine (r.verify_ok_iff noMain).mpr ⟨defined, ?_⟩
    rintro ⟨dst, callee, args, x, has, hx, differs⟩
    obtain ⟨nonzero, y, hy, called⟩ := (r.code _ has).call dst callee args rfl
    cases hx.symm.trans hy
    have mem := List.mem_of_getElem? (Array.getElem?_toList.trans hx)
    obtain ⟨n, known⟩ := r.defined callee x hx nonzero (r.isSome_body defined mem)
    have arity := r.arity_of_defun hx nonzero known
    exact differs (arity.trans (agree _ known _ called rfl))

end Lowering.Result

open Lowering

/-- A program has a module if it can be lowered, and its functions can be linked. -/
theorem lower_ok_iff {config : LowerConfig} {program : List Expr} {m : Module} :
    lower config program = .ok m ↔
      lowerUnverified config program = .ok m ∧ Mention.Linked (Mention.ofExprs program) := by
  unfold lower
  cases lowered : lowerUnverified config program with
  | error error => exact ⟨nofun, fun h => nomatch h.1⟩
  | ok m' =>
    have r := result_of_lowerUnverified lowered
    rw [← r.verify_ok_iff_linked]
    dsimp only
    constructor
    · -- the module is handed out only after it has been verified
      intro same
      split at same
      next => cases same
      next verified =>
        cases same
        exact ⟨rfl, verified⟩
    · rintro ⟨same, verified⟩
      cases same
      rw [verified]

/-- A derivation from where lowering begins ends with the lowered module, all of whose units have
bodies. -/
theorem values_of_lower {config : LowerConfig} {program : List Expr} {m : Module}
    (h : lower config program = .ok m) : ∃ results s, Values program (start config program) results s ∧
      m = s.finishMain.module ∧
      ∀ unit ∈ m.units.toList, ∃ (j : Nat) (body : Body), m.units[j]? = some unit ∧ unit.body = some body := by
  obtain ⟨lowered, linked⟩ := lower_ok_iff.mp h
  obtain ⟨results, s, derived, same⟩ := lowerUnverified_ok_iff.mp lowered
  refine ⟨results, s, derived, same, fun unit mem => ?_⟩
  have defined := (result_of_lowerUnverified lowered).isSome_body linked.defined mem
  obtain ⟨body, hbody⟩ := Option.isSome_iff_exists.mp defined
  obtain ⟨j, hj⟩ := List.mem_iff_getElem?.mp mem
  exact ⟨j, body, Array.getElem?_toList ▸ hj, hbody⟩

/-- Lowering ends with a module that is well-formed but for its calls: one that mentions `main` has
two units of that name, and otherwise verification succeeds unless a function is called that is
not defined, or a call passes a wrong number of arguments, which it then reports. -/
theorem verify_of_lowered (config : LowerConfig) (program : List Expr) :
    (∀ m, lowerUnverified config program = .ok m →
      (Mention.NamesMain (Mention.ofExprs program) → m.verify = .error (.duplicateUnit "main")) ∧
      (¬Mention.NamesMain (Mention.ofExprs program) →
        (¬Mention.Undefined (Mention.ofExprs program) → ¬m.Miscalls → m.verify = .ok ⟨⟩) ∧
        (Mention.Undefined (Mention.ofExprs program) ∨ m.Miscalls →
          ∃ error, m.verify = .error error ∧ error.IsLink))) ∧
    ∀ error, lower config program = .error (.verify error) →
      error = .duplicateUnit "main" ∨ error.IsLink := by
  constructor
  · intro m lowered
    have r := result_of_lowerUnverified lowered
    refine ⟨r.verify_of_namesMain, fun noMain => ⟨fun defined fits => ?_, fun wrong => ?_⟩⟩
    · exact (r.verify_ok_iff noMain).mpr ⟨defined, fits⟩
    · -- it cannot succeed, and whatever it reports is about linking
      cases verified : m.verify with
      | ok =>
        obtain ⟨defined, fits⟩ := (r.verify_ok_iff noMain).mp verified
        exact absurd wrong (not_or.mpr ⟨defined, fits⟩)
      | error error => exact ⟨error, rfl, r.failsOnly_verify noMain error verified⟩
  · intro error failed
    unfold lower at failed
    split at failed
    next => cases failed
    next m lowered =>
      have r := result_of_lowerUnverified lowered
      split at failed
      next error' verified =>
        cases failed
        by_cases main : Mention.NamesMain (Mention.ofExprs program)
        · rw [r.verify_of_namesMain main] at verified
          cases verified
          exact .inl rfl
        · exact .inr (r.failsOnly_verify main error verified)
      next => cases failed

/-- After `(defun f (x) x)`, `(f 1)` is accepted. Before it, `(f)` is taken for a call of a function
without parameters if definitions are not looked for first, and then the definition differs. The
function that `(f)` calls alone has no body, and `(main)` calls for a second `main`. -/
theorem verify_of_lowered_outcomes :
    let here : Span := ⟨0, 0⟩
    let f : Expr := .list [.ident "defun" here, .ident "f" here, .list [.ident "x" here] here,
      .ident "x" here] here
    let call (name : String) (args : List Expr) : Expr := .list (.ident name here :: args) here
    (∃ m, lowerUnverified {} [f, call "f" [.int 1 here]] = .ok m ∧ m.verify = .ok ⟨⟩) ∧
    (∃ m error, lowerUnverified { presolve := false } [call "f" [], f] = .ok m ∧ m.Miscalls ∧
      m.verify = .error error ∧ error.IsLink) ∧
    (∃ m error, lowerUnverified {} [call "f" []] = .ok m ∧ m.verify = .error error ∧ error.IsLink) ∧
    ∃ m, lowerUnverified {} [call "main" []] = .ok m ∧ m.verify = .error (.duplicateUnit "main") := by
  intro here f call
  have lowers {config : LowerConfig} {program : List Expr}
      (succeeds : (lowerUnverified config program).toBool = true) :
      ∃ m, lowerUnverified config program = .ok m := by
    cases lowered : lowerUnverified config program with
    | error => simp [lowered, Except.toBool] at succeeds
    | ok m => exact ⟨m, rfl⟩
  refine ⟨?accepted, ?miscalled, ?undefined, ?main⟩
  case accepted =>
    let program := [f, call "f" [.int 1 here]]
    have mentions : Mention.ofExprs program = [.defun "f" 1, .call "f" 1] := by decide
    obtain ⟨m, lowered⟩ := @lowers {} program (by decide +kernel)
    have r := result_of_lowerUnverified lowered
    have linked : Mention.Linked (Mention.ofExprs program) := by
      rw [mentions]
      refine ⟨by simp [Mention.NamesMain, Mention.name], ?_, ?_⟩
      · simp [Mention.Undefined]
      · simp [Mention.Agree, Mention.arity]
    have fits : ¬m.Miscalls :=
      ((r.verify_ok_iff linked.noMain).mp (r.verify_ok_iff_linked.mpr linked)).2
    have main := (verify_of_lowered {} program).1 m lowered
    exact ⟨m, lowered, (main.2 linked.noMain).1 linked.defined fits⟩
  case miscalled =>
    let program := [call "f" [], f]
    have mentions : Mention.ofExprs program = [.call "f" 0, .defun "f" 1] := by decide
    have noMain : ¬Mention.NamesMain (Mention.ofExprs program) := by
      rw [mentions]
      simp [Mention.NamesMain, Mention.name]
    obtain ⟨m, lowered⟩ := @lowers { presolve := false } program (by decide +kernel)
    have r := result_of_lowerUnverified lowered
    have defined : ¬Mention.Undefined (Mention.ofExprs program) := by
      rw [mentions]
      simp [Mention.Undefined]
    -- if all calls did fit, the call and the definition would agree
    have wrong : m.Miscalls := Classical.byContradiction fun fits => by
      have linked := r.verify_ok_iff_linked.mp ((r.verify_ok_iff noMain).mpr ⟨defined, fits⟩)
      have agree := linked.agree
      rw [mentions] at agree
      simp [Mention.Agree, Mention.name, Mention.arity] at agree
    have main := (verify_of_lowered { presolve := false } program).1 m lowered
    obtain ⟨error, failed, link⟩ := (main.2 noMain).2 (.inr wrong)
    exact ⟨m, error, lowered, wrong, failed, link⟩
  case undefined =>
    let program := [call "f" []]
    have mentions : Mention.ofExprs program = [.call "f" 0] := by decide
    obtain ⟨m, lowered⟩ := @lowers {} program (by decide +kernel)
    have noMain : ¬Mention.NamesMain (Mention.ofExprs program) := by
      rw [mentions]
      simp [Mention.NamesMain, Mention.name]
    have undefined : Mention.Undefined (Mention.ofExprs program) := by
      rw [mentions]
      exact ⟨"f", 0, List.mem_cons_self, by simp⟩
    have main := (verify_of_lowered {} program).1 m lowered
    obtain ⟨error, failed, link⟩ := (main.2 noMain).2 (.inl undefined)
    exact ⟨m, error, lowered, failed, link⟩
  case main =>
    let program := [call "main" []]
    have mentions : Mention.ofExprs program = [.call "main" 0] := by decide
    obtain ⟨m, lowered⟩ := @lowers {} program (by decide +kernel)
    have names : Mention.NamesMain (Mention.ofExprs program) := by
      rw [mentions]
      exact ⟨_, List.mem_cons_self, rfl⟩
    exact ⟨m, lowered, ((verify_of_lowered {} program).1 m lowered).1 names⟩

end TwinLisp.Graph

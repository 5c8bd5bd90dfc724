import Mathlib.Data.List.Nodup
import TwinLisp.Proofs.Graph.Escape
import TwinLisp.Proofs.Lowering.Verify
import TwinLisp.Reader

/-!
Which symbols a listing introduces: the names of the string constants, of the two functions that every
listing declares and of the units. Those of a verified module clash only if a unit is named like one
of the others.
-/

namespace TwinLisp.Graph

/-- A line that begins with no `d` is not one for a function. -/
theorem introduced_eq_symbolAt {line : String} {c : Char} {rest : List Char}
    (begins : line.toList = c :: rest) (noKeyword : c ≠ 'd') :
    introduced line = symbolAt (c :: rest) := by
  have noDeclare : "declare ".toList.isPrefixOf (c :: rest) = false := by
    simp [List.isPrefixOf, noKeyword.symm]
  have noDefine : "define ".toList.isPrefixOf (c :: rest) = false := by
    simp [List.isPrefixOf, noKeyword.symm]
  unfold introduced
  simp only [begins, noDeclare, noDefine, Bool.or_self, Bool.false_eq_true, if_false]

/-- A line that begins like neither a symbol nor a keyword introduces nothing. -/
theorem introduced_of_cons {line : String} {c : Char} {rest : List Char}
    (begins : line.toList = c :: rest) (noSymbol : c ≠ '@') (noKeyword : c ≠ 'd') :
    introduced line = none := by
  rw [introduced_eq_symbolAt begins noKeyword]
  unfold symbolAt
  split
  next same => exact absurd (List.cons.inj same).1 noSymbol
  next same => exact absurd (List.cons.inj same).1 noSymbol
  next => rfl

theorem globalText_eq_cons (name : String) : ∃ rest, (globalText name).toList = '@' :: rest := by
  unfold globalText
  split
  · exact ⟨_, String.toList_append⟩
  · rw [String.toList_append, String.toList_append]
    exact ⟨_, rfl⟩

/-- A declaration or definition of a function. -/
theorem introduced_function (keyword : String) (known : keyword ∈ ["declare i64 ", "define i64 "])
    (name rest : String) :
    introduced (keyword ++ globalText name ++ "(" ++ rest) = some (utf8Bytes name) := by
  have written : (keyword ++ globalText name ++ "(" ++ rest).toList
      = keyword.toList ++ ((globalText name).toList ++ '(' :: rest.toList) := by
    simp [String.toList_append]
  obtain ⟨tail, begins⟩ := globalText_eq_cons name
  have symbol := symbolAt_globalText name '(' (by decide) rest.toList
  unfold introduced
  rw [written]
  rw [begins] at symbol ⊢
  simp only [List.mem_cons, List.not_mem_nil, or_false] at known
  rcases known with rfl | rfl
  · exact symbol
  · exact symbol

theorem toList_stringName (id : StringId) :
    (stringName id).toList = '.' :: 's' :: 't' :: 'r' :: '.' :: Nat.toDigits 10 id := by
  unfold stringName
  rw [String.toList_append, Nat.toString_eq_repr, Nat.toList_repr]
  rfl

theorem stringName_injective : Function.Injective stringName := by
  intro i j same
  have digits := congrArg String.toList same
  rw [toList_stringName, toList_stringName] at digits
  have digits : Nat.toDigits 10 i = Nat.toDigits 10 j := by simpa using digits
  rw [← Nat.ofDigitChars_ten_toDigits (n := i), digits, Nat.ofDigitChars_ten_toDigits]

/-- Names of string constants begin with a dot. -/
theorem stringName_ne {name : String} (noDot : name.toList.head? ≠ some '.') (id : StringId) :
    stringName id ≠ name := by
  rintro rfl
  rw [toList_stringName] at noDot
  exact noDot rfl

theorem globalText_stringName (id : StringId) : globalText (stringName id) = stringText id := by
  have plain : isPlainName (stringName id) = true := by
    unfold isPlainName
    rw [toList_stringName]
    simp only [List.isEmpty_cons, Bool.not_false, Bool.true_and, List.all_eq_true, List.mem_cons]
    rintro c (rfl | rfl | rfl | rfl | rfl | digit)
    iterate 5 rfl
    have digit := Nat.isDigit_of_mem_toDigits (by decide) (Nat.le_refl 10) digit
    simp [isPlainChar, Char.isAlphanum, digit]
  unfold globalText stringText stringName
  unfold stringName at plain
  rw [if_pos plain, ← String.append_assoc]
  rfl

theorem introduced_stringLine (id : StringId) (text : String) :
    introduced (Module.stringLine id text) = some (utf8Bytes (stringName id)) := by
  obtain ⟨tail, begins⟩ := globalText_eq_cons (stringName id)
  obtain ⟨rest, written⟩ : ∃ rest, (Module.stringLine id text).toList
      = (globalText (stringName id)).toList ++ ' ' :: rest := by
    unfold Module.stringLine
    rw [globalText_stringName]
    simp only [String.toList_append, List.append_assoc]
    exact ⟨_, rfl⟩
  have symbol := symbolAt_globalText (stringName id) ' ' (by decide) rest
  rw [begins] at written symbol
  exact (introduced_eq_symbolAt written (by decide)).trans symbol

namespace Module

variable {m : Module}

/-- The lines of a block introduce nothing: they are a label and indented. -/
theorem introduced_blockLines (body : Body) (block : Block) :
    (m.blockLines body block).filterMap introduced = [] := by
  have label : introduced (blockText block.id ++ ":") = none := by
    unfold blockText
    rw [String.append_assoc]
    exact introduced_of_cons String.toList_append (by decide) (by decide)
  have indented (text : String) : introduced ("  " ++ text) = none :=
    introduced_of_cons String.toList_append (by decide) (by decide)
  unfold blockLines
  simp [label, indented]

/-- The first line of a unit introduces its name. -/
theorem introduced_unitLines (unit : CodeUnit) :
    (m.unitLines unit).filterMap introduced = [utf8Bytes unit.name] := by
  unfold unitLines
  split
  next =>
    have head := introduced_function "declare i64 " (by simp) unit.name
      (commaList (List.replicate unit.arity "i64") ++ ")")
    rw [← String.append_assoc] at head
    rw [List.filterMap_cons_some head, List.filterMap_nil]
  -- the head of a definition introduces its symbol, the lines of its blocks introduce none
  next body _ =>
    have head := introduced_function "define i64 " (by simp) unit.name
      (commaList (body.params.map fun p => "i64 " ++ valueText p) ++ ") \x7b")
    rw [← String.append_assoc] at head
    have blocks : (body.blocks.flatMap (m.blockLines body)).filterMap introduced = [] := by
      rw [List.filterMap_flatMap]
      simp [introduced_blockLines]
    have closing : introduced "\x7d" = none := rfl
    rw [List.filterMap_append, List.filterMap_append, blocks, List.filterMap_cons_some head,
      List.filterMap_cons_none closing]
    rfl

/-- The symbols of a listing are the fixed names and those of the units. -/
theorem symbols_eq (m : Module) :
    m.symbols = (m.fixedNames ++ m.units.toList.map (·.name)).map utf8Bytes := by
  -- line by line: only constants, declarations and definitions introduce a symbol
  have title : introduced ("; ModuleID = \x27" ++ m.name ++ "\x27") = none := by
    rw [String.append_assoc]
    exact introduced_of_cons String.toList_append (by decide) (by decide)
  have strings : (m.strings.toList.mapIdx stringLine).filterMap introduced
      = ((List.range m.strings.size).map stringName).map utf8Bytes := by
    have each (p : String × Nat) : introduced (stringLine p.2 p.1)
        = some (utf8Bytes (stringName p.2)) := introduced_stringLine p.2 p.1
    rw [List.mapIdx_eq_zipIdx_map, List.filterMap_map]
    simp only [Function.comp_def, each, List.filterMap_eq_map']
    rw [← Array.length_toList, List.range_eq_range', ← List.zipIdx_map_snd, List.map_map, List.map_map]
    rfl
  -- two functions for printing are declared in every listing
  have declared : ["", "declare void @print_i64(i64)", "declare void @print_str(ptr)"].filterMap
      introduced = ["print_i64", "print_str"].map utf8Bytes := by
    decide
  have units : (m.units.toList.flatMap fun unit => "" :: m.unitLines unit).filterMap introduced
      = (m.units.toList.map (·.name)).map utf8Bytes := by
    have blank : introduced "" = none := rfl
    rw [List.filterMap_flatMap]
    simp only [List.filterMap_cons_none blank, introduced_unitLines, List.map_map]
    exact List.map_eq_flatMap.symm
  unfold symbols listingLines fixedNames
  rw [List.filterMap_append, List.filterMap_append, List.filterMap_append, strings, declared, units,
    List.filterMap_cons_none title, List.filterMap_nil, List.nil_append, List.map_append,
    List.map_append]

theorem mem_fixedNames_iff {name : String} : name ∈ m.fixedNames ↔
    (∃ id < m.strings.size, stringName id = name) ∨ name = "print_i64" ∨ name = "print_str" := by
  simp [fixedNames]

/-- The names that every listing has are distinct. -/
theorem fixedNames_nodup (m : Module) : m.fixedNames.Nodup := by
  refine List.nodup_append.mpr ⟨List.nodup_range.map stringName_injective, by decide, ?_⟩
  rintro name string other declared rfl
  obtain ⟨id, -, rfl⟩ := List.mem_map.mp string
  simp only [List.mem_cons, List.not_mem_nil, or_false] at declared
  rcases declared with same | same
  · exact stringName_ne (by decide) id same
  · exact stringName_ne (by decide) id same

/-- `main` is none of the names that every listing has. -/
theorem main_not_mem_fixedNames (m : Module) : "main" ∉ m.fixedNames := by
  rw [mem_fixedNames_iff]
  rintro (⟨id, -, same⟩ | same | same)
  · exact stringName_ne (by decide) id same
  · exact absurd same (by decide)
  · exact absurd same (by decide)

end Module

/-- **The symbols of a listing clash only by the name of a function.** The listing of a program
introduces each symbol once if and only if the program defines no function that is named like a
string constant of the module or like one of the two functions that every listing declares. -/
theorem symbols_nodup_iff {config : LowerConfig} {program : List Expr} {m : Module}
    (lowered : lower config program = .ok m) :
    m.symbols.Nodup ↔
      ∀ name arity, .defun name arity ∈ Mention.ofExprs program → name ∉ m.fixedNames := by
  obtain ⟨unverified, linked⟩ := lower_ok_iff.mp lowered
  have r := Lowering.result_of_lowerUnverified unverified
  rw [m.symbols_eq, List.nodup_map_iff utf8Bytes_injective, List.nodup_append]
  constructor
  · rintro ⟨-, -, apart⟩ name arity mention fixed
    -- a definition that is mentioned has its unit, whose symbol would be there twice
    obtain ⟨j, x, -, hx, named⟩ := r.unit_of_mention mention
    have mem : name ∈ m.units.toList.map (·.name) :=
      List.mem_map.mpr ⟨x, List.mem_of_getElem? (Array.getElem?_toList.trans hx), named⟩
    exact apart name fixed name mem rfl
  · intro apart
    refine ⟨m.fixedNames_nodup, r.names_nodup linked.noMain, ?_⟩
    rintro name fixed other mem rfl
    -- any unit but `main` is that of a definition
    obtain ⟨x, hx, rfl⟩ := List.mem_map.mp mem
    obtain ⟨j, hj⟩ := List.mem_iff_getElem?.mp hx
    rw [Array.getElem?_toList] at hj
    by_cases first : j = 0
    · subst first
      obtain ⟨entry, hentry, named, -⟩ := r.entry
      cases hj.symm.trans hentry
      rw [named] at fixed
      exact m.main_not_mem_fixedNames fixed
    · obtain ⟨arity, mention⟩ := r.defined j x hj first (r.isSome_body linked.defined hx)
      exact apart _ arity mention fixed

/-- `(defun add-one (x) (+ x 1)) (print "two") (add-one 1)`. -/
def namedApart : List Expr :=
  [.list [.ident "defun" ⟨1, 6⟩, .ident "add-one" ⟨7, 14⟩, .list [.ident "x" ⟨16, 17⟩] ⟨15, 18⟩,
    .list [.ident "+" ⟨20, 21⟩, .ident "x" ⟨22, 23⟩, .int 1 ⟨24, 25⟩] ⟨19, 26⟩] ⟨0, 27⟩,
  .list [.ident "print" ⟨29, 34⟩, .str "two" ⟨35, 40⟩] ⟨28, 41⟩,
  .list [.ident "add-one" ⟨43, 50⟩, .int 1 ⟨51, 52⟩] ⟨42, 53⟩]

theorem symbols_nodup_namedApart : ∃ m, lower {} namedApart = .ok m ∧ m.symbols.Nodup := by
  have succeeds : (lower {} namedApart).toBool = true := by decide +kernel
  have mentions : Mention.ofExprs namedApart = [.defun "add-one" 1, .call "add-one" 1] := by decide
  cases lowered : lower {} namedApart with
  | error => simp [lowered, Except.toBool] at succeeds
  | ok m =>
    refine ⟨m, rfl, (symbols_nodup_iff lowered).mpr fun name arity mention fixed => ?_⟩
    obtain ⟨rfl, -⟩ : name = "add-one" ∧ arity = 1 := by simpa [mentions] using mention
    rcases Module.mem_fixedNames_iff.mp fixed with ⟨id, -, same⟩ | same | same
    · exact stringName_ne (by decide) id same
    · exact absurd same (by decide)
    · exact absurd same (by decide)

/-- A function that is called `print_i64` is accepted, but the listing declares that symbol before it
defines it. -/
theorem not_symbols_nodup_primitive : ∃ program m,
    Reader.read "(defun print_i64 (x) x) (print 1)" = .ok program ∧ lower {} program = .ok m ∧
      ¬m.symbols.Nodup := by
  let program : List Expr :=
    [.list [.ident "defun" ⟨1, 6⟩, .ident "print_i64" ⟨7, 16⟩, .list [.ident "x" ⟨18, 19⟩] ⟨17, 20⟩,
      .ident "x" ⟨21, 22⟩] ⟨0, 23⟩,
    .list [.ident "print" ⟨25, 30⟩, .int 1 ⟨31, 32⟩] ⟨24, 33⟩]
  have read : Reader.read "(defun print_i64 (x) x) (print 1)" = .ok program := by rfl
  have clash : (lower {} program).toOption.any (fun m => !decide m.symbols.Nodup) = true := by
    decide +kernel
  cases lowered : lower {} program with
  | error => simp [lowered, Except.toOption] at clash
  | ok m =>
    refine ⟨program, m, read, lowered, ?_⟩
    simpa [lowered, Except.toOption] using clash

end TwinLisp.Graph

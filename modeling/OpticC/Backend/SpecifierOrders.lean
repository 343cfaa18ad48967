import OpticC.Backend.SizeAgreement
import Mathlib.Data.List.Permutation

/-! Declaration specifiers in any order. C reads them as a multiset; the parser folds the chain
to a kind, and the backend takes the type of a member, of a local variable, of a global and of
a parameter from one specifier each. -/

namespace OpticC.Sizes

deriving instance DecidableEq for Word

inductive StorageClass where
  | typedef | extern_ | static | auto | register | threadLocal
  deriving DecidableEq, Repr

/-- `parse_storage_class_specifier`. -/
def StorageClass.kind : StorageClass → ℕ
  | typedef => 101
  | extern_ => 102
  | static => 103
  | auto => 104
  | register => 105
  | threadLocal => 106

/-- A `struct` or `union` specifier. `data` is where its tag is stored. -/
structure RecordSpecifier where
  kind : ℕ
  data : ℕ
  tag : String
  members : List Node
  isRecord : kind = 4 ∨ kind = 5

def RecordSpecifier.node (r : RecordSpecifier) : Node := .mk r.kind r.data r.tag r.members

/-- What may stand among the specifiers of a declaration. -/
inductive Specifier where
  | word (w : Word)
  | record (r : RecordSpecifier)
  | storage (s : StorageClass)
  | attributes (attrs : List Node)

namespace Specifier

def node : Specifier → Node
  | word w => w.node
  | record r => r.node
  | storage s => .mk s.kind 0 "" []
  | attributes attrs => .mk 200 0 "" attrs

/-- The words that are type specifiers. -/
def typeWord : Specifier → Option Word
  | word w => if w.isQualifier then none else some w
  | _ => none

def recordSpecifier : Specifier → Option RecordSpecifier
  | record r => some r
  | _ => none

/-- The parts of a chain that say nothing about the type. -/
def isSilent (spec : Specifier) : Bool := spec.typeWord.isNone && spec.recordSpecifier.isNone

end Specifier

def typeWords (specs : List Specifier) : List Word := specs.filterMap Specifier.typeWord

def records (specs : List Specifier) : List RecordSpecifier :=
  specs.filterMap Specifier.recordSpecifier

section Resolve

/-- The variables of `resolve_specifier_chain_kind`. -/
structure SpecifierState where
  hasUnsigned : Bool
  hasSigned : Bool
  baseKind : ℕ
  longCount : ℕ
  structData : ℕ
  isStructOrUnion : Bool
  isPointer : Bool
  deriving DecidableEq

def SpecifierState.start : SpecifierState := ⟨false, false, 2, 0, 0, false, false⟩

/-- One node of the chain. -/
def SpecifierState.visit (typedefKinds : String → Option (ℕ × ℕ)) (s : SpecifierState)
    (node : Node) : SpecifierState :=
  match node.kind with
  | 13 => { s with hasUnsigned := true }
  | 12 => { s with hasSigned := true }
  | 3 => { s with baseKind := 3 }
  | 10 => { s with baseKind := 10 }
  | 2 => if s.baseKind ≠ 11 then { s with baseKind := 2 } else s
  | 11 => { s with longCount := s.longCount + 1, baseKind := 11 }
  | 83 => { s with baseKind := 83 }
  | 84 => { s with baseKind := 84 }
  | 1 => { s with baseKind := 1 }
  | 14 => { s with baseKind := 14 }
  | 4 => { s with baseKind := 4, structData := node.data, isStructOrUnion := true }
  | 5 => { s with baseKind := 5, structData := node.data, isStructOrUnion := true }
  | 16 => { s with baseKind := 16 }
  | 7 => { s with isPointer := true }
  | 101 | 102 | 103 | 104 | 105 | 106 | 200 | 6 => s
  | _ =>
    if node.data ≠ 0 then
      match typedefKinds node.text with
      | some (kind, tag) =>
        if kind = 4 ∨ kind = 5 then
          { s with baseKind := kind, structData := tag, isStructOrUnion := true }
        else { s with baseKind := kind }
      | none => s
    else s

/-- The kind, and the tag of a record. -/
def SpecifierState.resolved (s : SpecifierState) : ℕ × ℕ :=
  if s.isPointer then (7, 0)
  else if s.isStructOrUnion then (s.baseKind, s.structData)
  else if s.longCount ≥ 2 then (11, 0)
  else if s.hasUnsigned then
    match s.baseKind with
    | 3 => (3, 0)
    | 10 => (10, 0)
    | 11 => (11, 0)
    | _ => (13, 0)
  else if s.hasSigned then
    match s.baseKind with
    | 3 => (3, 0)
    | 10 => (10, 0)
    | 11 => (11, 0)
    | _ => (2, 0)
  else (s.baseKind, 0)

def resolveSpecifierChainKind (typedefKinds : String → Option (ℕ × ℕ)) (chain : List Node) : ℕ × ℕ :=
  (chain.foldl (SpecifierState.visit typedefKinds) .start).resolved

end Resolve

section Places

/-! The types that a declaration `specs x;` gives, and for a global also `specs x = i;`. -/

variable (tags : Tags) (specs : List Specifier)

inductive Place where
  | member | block | file | initialized | parameter
  deriving DecidableEq, Repr

def identNode : Node := .mk 60 0 "x" []

/-- The chain of a declaration: the specifiers and the declarator. -/
def chain : List Node := specs.map Specifier.node ++ [identNode]

/-- The field that `register_struct_types_in_node` adds. -/
def memberType : Option BasicType :=
  match (registerField tags (.mk 25 0 "" (chain specs)) none).1 with
  | [ty] => some ty
  | _ => none

/-- `lower_var_decl`. -/
def localType : Option BasicType :=
  match (chain specs).dropWhile fun node => isStorageOrQualifier node.kind with
  | spec :: _ => some (localBaseType tags spec)
  | [] => some (.int 32)

/-- `lower_global_decl`: only specifiers and storage classes in front of the one it takes. -/
def globalType : Option BasicType :=
  let nodes := specs.map Specifier.node
  let first := nodes.takeWhile fun node =>
    isPlainSpecifier node.kind || 101 ≤ node.kind && node.kind ≤ 105
  if nodes.any fun node => isPlainSpecifier node.kind then
    match first.find? fun node => isPlainSpecifier node.kind with
    | some spec => some (specifierToLlvmType tags spec)
    | none => some (basicTypeOfKind 2)
  else none

/-- `lower_global_var`. -/
def initializedGlobalType : Option BasicType :=
  match (chain specs).find? fun node => isPlainSpecifier node.kind with
  | some spec => some (specifierToLlvmType tags spec)
  | none => some (basicTypeOfKind 2)

/-- `extract_param_type_name`. -/
def parameterType : Option BasicType := ((chain specs).head?).map (specifierToLlvmType tags)

def Place.type : Place → Option BasicType
  | member => memberType tags specs
  | block => localType tags specs
  | file => globalType tags specs
  | initialized => initializedGlobalType tags specs
  | parameter => parameterType tags specs

end Places

section CTypes

/-- The type that C assigns to a multiset of specifiers. -/
inductive SpecifiedType where
  | void
  | bool
  | int (t : IntType)
  | float
  | double
  | longDouble
  | complex (bytes : ℕ)
  | enum
  /-- A typedef name for a pointer type. -/
  | pointer
  | record (r : RecordSpecifier)

namespace SpecifiedType

def char : SpecifiedType := int ⟨true, 8, eight_pos⟩
def uchar : SpecifiedType := int ⟨false, 8, eight_pos⟩
def short : SpecifiedType := int ⟨true, 16, sixteen_pos⟩
def ushort : SpecifiedType := int ⟨false, 16, sixteen_pos⟩
def sint : SpecifiedType := int ⟨true, 32, thirtyTwo_pos⟩
def uint : SpecifiedType := int ⟨false, 32, thirtyTwo_pos⟩
def long : SpecifiedType := int ⟨true, 64, sixtyFour_pos⟩
def ulong : SpecifiedType := int ⟨false, 64, sixtyFour_pos⟩

/-- The kind of the type, and the tag of a record. `long double` has none of its own, and the
type of an enumeration is `int`. -/
def kind : SpecifiedType → ℕ × ℕ
  | void => (1, 0)
  | bool => (14, 0)
  | int t =>
    match t.width with
    | 8 => (3, 0)
    | 16 => (10, 0)
    | 32 => (if t.signed then 2 else 13, 0)
    | _ => (11, 0)
  | float => (83, 0)
  | double | longDouble => (84, 0)
  | complex _ => (15, 0)
  | enum => (2, 0)
  | pointer => (7, 0)
  | record r => (r.kind, r.data)

/-- The bytes of an object of the type on x86-64. A record has those of its LLVM type. -/
def size (tags : Tags) : SpecifiedType → Option ℕ
  | void => none
  | bool => some 1
  | int t => some (t.width / 8)
  | float | enum => some 4
  | double | pointer => some 8
  | longDouble => some 16
  | complex bytes => some bytes
  | record r => (structInfoForSpec tags r.node).map fun st => allocSize st.asBasicType

end SpecifiedType

open Word in
/-- The multisets of C11 (6.7.2), those of one specifier that has more than its name apart. -/
def specifierMultisets : List (List Word × SpecifiedType) :=
  [([void], .void), ([char], .char), ([signed, char], .char), ([unsigned, char], .uchar),
    ([short], .short), ([signed, short], .short), ([short, int], .short),
    ([signed, short, int], .short), ([unsigned, short], .ushort), ([unsigned, short, int], .ushort),
    ([int], .sint), ([signed], .sint), ([signed, int], .sint), ([unsigned], .uint),
    ([unsigned, int], .uint), ([long], .long), ([signed, long], .long), ([long, int], .long),
    ([signed, long, int], .long), ([unsigned, long], .ulong), ([unsigned, long, int], .ulong),
    ([long, long], .long), ([signed, long, long], .long), ([long, long, int], .long),
    ([signed, long, long, int], .long), ([unsigned, long, long], .ulong),
    ([unsigned, long, long, int], .ulong), ([float], .float), ([double], .double),
    ([long, double], .longDouble), ([bool], .bool), ([float, complex], .complex 8),
    ([double, complex], .complex 16), ([long, double, complex], .complex 32),
    ([pointerAlias], .pointer)]

/-- The specifiers, in whatever order, name the type. -/
inductive Names (specs : List Specifier) : SpecifiedType → Prop
  | words {entry t} (hentry : (entry, t) ∈ specifierMultisets) (hwords : (typeWords specs).Perm entry)
    (hrecords : records specs = []) : Names specs t
  | enum {constants} (hwords : typeWords specs = [.enum constants]) (hrecords : records specs = []) :
    Names specs .enum
  | record {r} (hwords : typeWords specs = []) (hrecords : records specs = [r]) :
    Names specs (.record r)

end CTypes

section Claims

variable (typedefKinds : String → Option (ℕ × ℕ)) (tags : Tags) (specs : List Specifier)

/-- The parser finds the kind of the type, and an object declared with the chain has its size
wherever it stands. -/
def FollowsMultiset (t : SpecifiedType) : Prop :=
  resolveSpecifierChainKind typedefKinds (specs.map Specifier.node) = t.kind ∧
    (Specifier.storage .typedef ∉ specs → ∀ n, t.size tags = some n →
      ∀ place : Place, (place.type tags specs).map allocSize = some n)

/-- No `int` stands behind `short` and no `long` behind `double`, and the type is not complex. -/
def KindOrder (words : List Word) : Prop :=
  ¬ [10, 2].Sublist (words.map Word.kind) ∧ ¬ [84, 11].Sublist (words.map Word.kind) ∧
    15 ∉ words.map Word.kind

instance (words : List Word) : Decidable (KindOrder words) := by
  unfold KindOrder
  infer_instance

/-- The bytes that one specifier stands for where it is looked at alone. -/
def standsFor : Specifier → ℕ
  | .word .void | .word .char => 1
  | .word .short => 2
  | .word .long | .word .double | .word .vaList | .word .pointerAlias => 8
  | .word _ | .storage _ | .attributes _ => 4
  | .record r => allocSize (specifierToLlvmType tags r.node)

def firstStandsFor (specs : List Specifier) : ℕ := (specs.head?.map (standsFor tags)).getD 4

/-- The nodes that the scan of a member takes account of. -/
def isMemberNode (kind : ℕ) : Bool :=
  isRegisterSpecifier kind || kind == 7 || kind == 8 || kind == 9 || kind == 27

mutual

/-- None of them stands below the node. -/
def quietBelow : Node → Bool
  | .mk _ _ _ children => quietAll children

def quietAll : List Node → Bool
  | [] => true
  | node :: rest => !isMemberNode node.kind && quietBelow node && quietAll rest

end

/-- Storage classes and qualifiers. -/
def isSkipped (spec : Specifier) : Bool := isStorageOrQualifier spec.node.kind

def isPlain (spec : Specifier) : Bool := isPlainSpecifier spec.node.kind

/-- The specifier that each place looks at has the size: the last one in a member, unless a
body or an argument of an attribute says another; the first one behind storage classes and
qualifiers in a block; the first plain one in a global, without an initializer only if nothing
but storage classes stands in front of it; the first in a parameter. -/
structure SizeOrder (n : ℕ) : Prop where
  member : if specs.all fun spec => quietBelow spec.node then
      ((specs.filter fun spec => isMemberNode spec.node.kind).getLast?.map (standsFor tags)).getD 4 = n
    else (memberType tags specs).map allocSize = some n
  block : firstStandsFor tags (specs.dropWhile isSkipped) = n
  file : specs.any isPlain = true ∧ firstStandsFor tags ((specs.takeWhile fun spec =>
    isPlain spec || 101 ≤ spec.node.kind && spec.node.kind ≤ 105).filter isPlain) = n
  initialized : firstStandsFor tags (specs.filter isPlain) = n
  parameter : firstStandsFor tags specs = n

structure OrderFits (t : SpecifiedType) : Prop where
  kind : KindOrder (typeWords specs)
  sizes : Specifier.storage .typedef ∉ specs → ∀ n, t.size tags = some n → SizeOrder tags specs n

end Claims

section Kinds

variable {typedefKinds : String → Option (ℕ × ℕ)}

theorem visit_silent {spec : Specifier} (h : spec.isSilent = true) (s : SpecifierState) :
    s.visit typedefKinds spec.node = s := by
  cases spec with
  | word w => cases w <;> first | rfl | cases h
  | record => cases h
  | storage c => cases c <;> rfl
  | attributes => rfl

/-- A word names no typedef. -/
theorem visit_word (w : Word) (s : SpecifierState) :
    s.visit typedefKinds w.node = s.visit (fun _ => none) w.node := by
  cases w <;> rfl

theorem visit_record (r : RecordSpecifier) (s : SpecifierState) :
    s.visit typedefKinds r.node =
      { s with baseKind := r.kind, structData := r.data, isStructOrUnion := true } := by
  obtain ⟨kind, data, tag, members, rfl | rfl⟩ := r
  · rfl
  · rfl

theorem foldl_visit_speaking (specs : List Specifier) (s : SpecifierState) :
    (specs.map Specifier.node).foldl (SpecifierState.visit typedefKinds) s =
      ((specs.filter fun spec => !spec.isSilent).map Specifier.node).foldl
        (SpecifierState.visit typedefKinds) s := by
  induction specs generalizing s with
  | nil => rfl
  | cons spec specs ih =>
    by_cases h : spec.isSilent = true
    · rw [List.filter_cons_of_neg (by simp [h]), List.map_cons, List.foldl_cons, visit_silent h, ih]
    · rw [List.filter_cons_of_pos (by simp [h]), List.map_cons, List.map_cons, List.foldl_cons,
        List.foldl_cons, ih]

theorem speaking_words {specs : List Specifier} (h : records specs = []) :
    (specs.filter fun spec => !spec.isSilent).map Specifier.node = (typeWords specs).map Word.node := by
  induction specs with
  | nil => rfl
  | cons spec specs ih =>
    cases spec with
    | word w =>
      have ih := ih h
      by_cases hw : w.isQualifier = true
      · have hsilent : (Specifier.word w).isSilent = true := by
          simp [Specifier.isSilent, Specifier.typeWord, Specifier.recordSpecifier, hw]
        rw [List.filter_cons_of_neg (by simp [hsilent]), ih]
        simp [typeWords, Specifier.typeWord, hw]
      · have hsilent : (Specifier.word w).isSilent = false := by
          simp [Specifier.isSilent, Specifier.typeWord, hw]
        rw [List.filter_cons_of_pos (by simp [hsilent]), List.map_cons, ih]
        simp [typeWords, Specifier.typeWord, hw, Specifier.node]
    | record r => cases h
    | storage c => exact ih h
    | attributes attrs => exact ih h

theorem speaking_record {specs : List Specifier} {r : RecordSpecifier} (hwords : typeWords specs = [])
    (h : records specs = [r]) :
    (specs.filter fun spec => !spec.isSilent).map Specifier.node = [r.node] := by
  induction specs with
  | nil => cases h
  | cons spec specs ih =>
    cases spec with
    | word w =>
      by_cases hw : w.isQualifier = true
      · have hsilent : (Specifier.word w).isSilent = true := by
          simp [Specifier.isSilent, Specifier.typeWord, Specifier.recordSpecifier, hw]
        rw [List.filter_cons_of_neg (by simp [hsilent])]
        exact ih (by simpa [typeWords, Specifier.typeWord, hw] using hwords) h
      · simp [typeWords, Specifier.typeWord, hw] at hwords
    | record r' =>
      obtain ⟨rfl, hrest⟩ := List.cons.inj h
      have hnone := speaking_words hrest
      have hwords' : typeWords specs = [] := hwords
      rw [List.filter_cons_of_pos (by rfl), List.map_cons, hnone, hwords']
      rfl
    | storage c => exact ih hwords h
    | attributes attrs => exact ih hwords h

/-- Every order of every multiset, one by one. -/
theorem resolve_orders : ∀ e ∈ specifierMultisets, ∀ words ∈ e.1.permutations',
    resolveSpecifierChainKind (fun _ => none) (words.map Word.node) = e.2.kind ↔ KindOrder words := by
  decide

theorem resolve_iff {specs : List Specifier} {t : SpecifiedType} (h : Names specs t) :
    resolveSpecifierChainKind typedefKinds (specs.map Specifier.node) = t.kind ↔
      KindOrder (typeWords specs) := by
  have hwords : ∀ (words : List Word) (s : SpecifierState),
      (words.map Word.node).foldl (SpecifierState.visit typedefKinds) s =
        (words.map Word.node).foldl (SpecifierState.visit fun _ => none) s := by
    intro words
    induction words with
    | nil => exact fun _ => rfl
    | cons w words ih =>
      intro s
      rw [List.map_cons, List.foldl_cons, List.foldl_cons, visit_word, ih]
  rw [resolveSpecifierChainKind, foldl_visit_speaking]
  cases h with
  | words hentry hperm hrecords =>
    rw [speaking_words hrecords, hwords]
    exact resolve_orders _ hentry _ (List.mem_permutations'.2 hperm)
  | enum henum hrecords =>
    rw [speaking_words hrecords, henum]
    exact iff_of_true rfl (by simp [KindOrder, Word.kind])
  | @record r hnone hrecord =>
    rw [speaking_record hnone hrecord, hnone, List.foldl_cons, visit_record]
    exact iff_of_true rfl (by decide)

end Kinds

section Sizes

variable {tags : Tags}

theorem allocSize_specifier (spec : Specifier) :
    allocSize (specifierToLlvmType tags spec.node) = standsFor tags spec := by
  cases spec with
  | word w => cases w <;> rfl
  | record r => rfl
  | storage c => cases c <;> rfl
  | attributes => rfl

theorem allocSize_first (specs : List Specifier) :
    ((specs.head?.map fun spec => specifierToLlvmType tags spec.node).map allocSize).getD 4 =
      firstStandsFor tags specs := by
  cases specs with
  | nil => rfl
  | cons spec specs => exact allocSize_specifier spec

/-- The first plain specifier of a chain. -/
theorem find?_specifiers (specs : List Specifier) :
    ((specs.map Specifier.node).find? fun node => isPlainSpecifier node.kind) =
      ((specs.filter isPlain).head?).map Specifier.node := by
  rw [List.find?_map, ← List.head?_filter]
  rfl

theorem find?_chain (specs : List Specifier) :
    ((chain specs).find? fun node => isPlainSpecifier node.kind) =
      ((specs.filter isPlain).head?).map Specifier.node := by
  rw [chain, List.find?_append, find?_specifiers]
  cases (specs.filter isPlain).head? with
  | none => rfl
  | some spec => rfl

theorem initialized_iff (specs : List Specifier) (n : ℕ) :
    (initializedGlobalType tags specs).map allocSize = some n ↔
      firstStandsFor tags (specs.filter isPlain) = n := by
  rw [initializedGlobalType, find?_chain, ← allocSize_first]
  cases (specs.filter isPlain).head? with
  | none => exact Option.some_inj
  | some spec => exact Option.some_inj

theorem file_iff (specs : List Specifier) (n : ℕ) :
    (globalType tags specs).map allocSize = some n ↔
      specs.any isPlain = true ∧ firstStandsFor tags ((specs.takeWhile fun spec =>
        isPlain spec || 101 ≤ spec.node.kind && spec.node.kind ≤ 105).filter isPlain) = n := by
  have hany : ((specs.map Specifier.node).any fun node => isPlainSpecifier node.kind) =
      specs.any isPlain := List.any_map
  have htake : (specs.map Specifier.node).takeWhile (fun node =>
        isPlainSpecifier node.kind || 101 ≤ node.kind && node.kind ≤ 105) =
      (specs.takeWhile fun spec =>
        isPlain spec || 101 ≤ spec.node.kind && spec.node.kind ≤ 105).map Specifier.node :=
    List.takeWhile_map ..
  unfold globalType
  dsimp only
  rw [hany, htake, find?_specifiers, ← allocSize_first]
  by_cases hplain : specs.any isPlain = true
  · rw [if_pos hplain, and_iff_right hplain]
    cases ((specs.takeWhile fun spec => isPlain spec || 101 ≤ spec.node.kind &&
        spec.node.kind ≤ 105).filter isPlain).head? with
    | none => exact Option.some_inj
    | some spec => exact Option.some_inj
  · rw [if_neg hplain]
    exact iff_of_false (fun h => by cases h) fun h => hplain h.1

theorem parameter_iff {specs : List Specifier} (hne : specs ≠ []) (n : ℕ) :
    (parameterType tags specs).map allocSize = some n ↔ firstStandsFor tags specs = n := by
  obtain ⟨spec, rest, rfl⟩ := List.exists_cons_of_ne_nil hne
  have hfirst : firstStandsFor tags (spec :: rest) = allocSize (specifierToLlvmType tags spec.node) :=
    (allocSize_specifier spec).symm
  rw [hfirst]
  exact Option.some_inj

/-- In a block a record must be complete. -/
theorem block_iff {specs : List Specifier} (n : ℕ)
    (hrecords : ∀ r ∈ records specs, ∃ st, structInfoForSpec tags r.node = some st) :
    (localType tags specs).map allocSize = some n ↔
      firstStandsFor tags (specs.dropWhile isSkipped) = n := by
  have hlocal : ∀ spec ∈ specs, allocSize (localBaseType tags spec.node) = standsFor tags spec := by
    intro spec hspec
    cases spec with
    | word w => cases w <;> rfl
    | record r =>
      have hnode : r.node.isRecord = true := by
        obtain ⟨kind, data, tag, members, rfl | rfl⟩ := r <;> rfl
      obtain ⟨st, hst⟩ := hrecords r (List.mem_filterMap.2 ⟨.record r, hspec, rfl⟩)
      rw [← allocSize_specifier]
      exact congrArg allocSize
        ((localBaseType_record hnode hst).trans (specifierToLlvmType_record hnode hst).symm)
    | storage c => cases c <;> rfl
    | attributes => rfl
  unfold localType chain
  induction specs with
  | nil => exact Option.some_inj
  | cons spec specs ih =>
    rw [List.map_cons, List.cons_append]
    by_cases hskip : isSkipped spec = true
    · have hkind : isStorageOrQualifier spec.node.kind = true := hskip
      have hdrop : (spec.node :: (specs.map Specifier.node ++ [identNode])).dropWhile
          (fun node => isStorageOrQualifier node.kind) =
          (specs.map Specifier.node ++ [identNode]).dropWhile
            fun node => isStorageOrQualifier node.kind :=
        List.dropWhile_cons_of_pos hkind
      rw [hdrop, List.dropWhile_cons_of_pos hskip]
      refine ih (fun r hr => hrecords r ?_) fun spec' h => hlocal spec' (List.mem_cons_of_mem _ h)
      obtain ⟨spec', hspec', heq⟩ := List.mem_filterMap.1 hr
      exact List.mem_filterMap.2 ⟨spec', List.mem_cons_of_mem _ hspec', heq⟩
    · have hkind : ¬ isStorageOrQualifier spec.node.kind = true := hskip
      have hdrop : (spec.node :: (specs.map Specifier.node ++ [identNode])).dropWhile
          (fun node => isStorageOrQualifier node.kind) =
          spec.node :: (specs.map Specifier.node ++ [identNode]) :=
        List.dropWhile_cons_of_neg hkind
      rw [hdrop, List.dropWhile_cons_of_neg hskip]
      have hfirst : firstStandsFor tags (spec :: specs) = allocSize (localBaseType tags spec.node) :=
        (hlocal spec (List.mem_cons_self ..)).symm
      rw [hfirst]
      exact Option.some_inj

end Sizes

section Members

variable {tags : Tags}

theorem mem_typeWords {specs : List Specifier} {w : Word} (hw : w.isQualifier = false) :
    w ∈ typeWords specs ↔ Specifier.word w ∈ specs := by
  rw [typeWords, List.mem_filterMap]
  constructor
  · rintro ⟨spec, hmem, heq⟩
    cases spec with
    | word w' =>
      rw [Specifier.typeWord] at heq
      split_ifs at heq
      rwa [← Option.some.inj heq]
    | record => cases heq
    | storage => cases heq
    | attributes => cases heq
  · exact fun hmem => ⟨_, hmem, by simp [Specifier.typeWord, hw]⟩

theorem Names.words_ne_nil {specs : List Specifier} {t : SpecifiedType} (h : Names specs t) :
    specs ≠ [] := by
  rintro rfl
  cases h with
  | words hentry hperm =>
    obtain rfl := List.nil_perm.1 hperm
    have hne : ∀ e ∈ specifierMultisets, e.1 ≠ [] := by decide
    exact hne _ hentry rfl
  | enum hwords => cases hwords
  | record _ hrecords => cases hrecords

/-- A typedef name for a pointer type is the only type specifier. -/
theorem Names.alias_alone {specs : List Specifier} {t : SpecifiedType} (h : Names specs t)
    (halias : Specifier.word .pointerAlias ∈ specs) (spec : Specifier) (hspec : spec ∈ specs)
    (hkind : isMemberNode spec.node.kind = true) : spec = .word .pointerAlias := by
  have halias' : Word.pointerAlias ∈ typeWords specs := (mem_typeWords rfl).2 halias
  have hwords : ∀ w ∈ typeWords specs, w = .pointerAlias := by
    cases h with
    | words hentry hperm =>
      have halone : ∀ e ∈ specifierMultisets, Word.pointerAlias ∈ e.1 →
          ∀ w ∈ e.1, w = .pointerAlias := by decide
      exact fun w hw => halone _ hentry (hperm.mem_iff.1 halias') w (hperm.mem_iff.1 hw)
    | enum hwords =>
      rw [hwords] at halias'
      cases List.mem_singleton.1 halias'
    | record hwords =>
      rw [hwords] at halias'
      cases halias'
  have hrecords : records specs = [] := by
    cases h with
    | words _ _ hrecords => exact hrecords
    | enum _ hrecords => exact hrecords
    | record hwords =>
      rw [hwords] at halias'
      cases halias'
  cases spec with
  | word w =>
    have hw : w.isQualifier = false := by
      cases w <;> first | rfl | cases hkind
    rw [hwords w ((mem_typeWords hw).2 hspec)]
  | record r =>
    have hmem : r ∈ records specs := List.mem_filterMap.2 ⟨_, hspec, rfl⟩
    rw [hrecords] at hmem
    cases hmem
  | storage c => cases c <;> cases hkind
  | attributes => cases hkind

theorem registerVisit_other {node : Node} (h : isMemberNode node.kind = false) (s : MemberScan) :
    registerVisit tags s node = s := by
  simp only [isMemberNode, Bool.or_eq_false_iff, beq_eq_false_iff_ne] at h
  obtain ⟨⟨⟨⟨hspec, hpointer⟩, harray⟩, hfunction⟩, hbitfield⟩ := h
  simp only [registerVisit, hspec, hpointer, harray, hfunction, hbitfield, Bool.false_eq_true,
    or_self, if_false]

mutual

/-- Nothing below a quiet node matters to the scan. -/
theorem registerScanBelow_quiet : ∀ (node : Node) (s : MemberScan), quietBelow node = true →
    registerScanBelow tags node s = s
  | .mk _ _ _ children, s, h => by
    have hvisit : ∀ (children : List Node) (s : MemberScan), quietAll children = true →
        children.foldl (registerVisit tags) s = s := by
      intro children
      induction children with
      | nil => exact fun _ _ => rfl
      | cons node rest ih =>
        intro s h
        simp only [quietAll, Bool.and_eq_true, Bool.not_eq_true'] at h
        rw [List.foldl_cons, registerVisit_other h.1.1, ih s h.2]
    rw [registerScanBelow, hvisit children s h]
    exact registerScanBelowAll_quiet children s h

theorem registerScanBelowAll_quiet : ∀ (nodes : List Node) (s : MemberScan), quietAll nodes = true →
    registerScanBelowAll tags nodes s = s
  | [], _, _ => by rw [registerScanBelowAll]
  | node :: rest, s, h => by
    simp only [quietAll, Bool.and_eq_true] at h
    rw [registerScanBelowAll, registerScanBelowAll_quiet rest s h.2,
      registerScanBelow_quiet node s h.1.2]

end

theorem registerScanBelowAll_chain (specs : List Specifier) (s : MemberScan)
    (h : specs.all (fun spec => quietBelow spec.node) = true) :
    registerScanBelowAll tags (chain specs) s = s := by
  induction specs with
  | nil =>
    rw [chain, List.map_nil, List.nil_append, registerScanBelowAll, registerScanBelowAll]
    exact registerScanBelow_quiet identNode s rfl
  | cons spec specs ih =>
    rw [List.all_cons, Bool.and_eq_true] at h
    rw [chain, List.map_cons, List.cons_append, registerScanBelowAll]
    rw [chain] at ih
    rw [ih h.2, registerScanBelow_quiet _ s h.1]

/-- The chain itself, as the scan sees it. -/
def scanChain (tags : Tags) (specs : List Specifier) : MemberScan :=
  (specs.map Specifier.node).foldl (registerVisit tags) .start

theorem registerScan_quiet {specs : List Specifier}
    (h : specs.all (fun spec => quietBelow spec.node) = true) :
    registerScan tags (.mk 25 0 "" (chain specs)) = scanChain tags specs := by
  rw [registerScan, registerScanBelow, registerScanBelowAll_chain specs _ h, chain,
    List.foldl_append]
  rfl

theorem memberType_quiet {specs : List Specifier}
    (h : specs.all (fun spec => quietBelow spec.node) = true)
    (hbitfield : (scanChain tags specs).bitfieldWidth = none) :
    memberType tags specs = some (scanChain tags specs).registeredType := by
  have hkind : (Node.mk 25 0 "" (chain specs)).kind ≠ 200 := fun h => absurd h (by simp [Node.kind])
  rw [memberType, registerField, if_neg hkind, registerScan_quiet h]
  simp only [hbitfield]

/-- What a scan of a chain keeps. -/
structure ChainScan (tags : Tags) (specs : List Specifier) (s : MemberScan) : Prop where
  arrayLen : s.arrayLen = none
  bitfieldWidth : s.bitfieldWidth = none
  hasPointer : s.hasPointer = true ↔ Specifier.word .pointerAlias ∈ specs
  baseType : Specifier.word .pointerAlias ∉ specs → s.baseType =
    (((specs.filter fun spec => isMemberNode spec.node.kind).getLast?).map fun spec =>
      specifierToLlvmType tags spec.node).getD (.int 32)

/-- A specifier is an alias of a pointer type, sets the base kind, or does nothing. -/
theorem specifier_cases (spec : Specifier) : spec = .word .pointerAlias ∨
    spec ≠ .word .pointerAlias ∧
      (isRegisterSpecifier spec.node.kind = true ∨ isMemberNode spec.node.kind = false) := by
  cases spec with
  | word w =>
    cases w <;>
      first
      | exact .inl rfl
      | exact .inr ⟨nofun, .inl rfl⟩
      | exact .inr ⟨nofun, .inr rfl⟩
  | record r =>
    obtain ⟨kind, data, tag, members, rfl | rfl⟩ := r
    · exact .inr ⟨nofun, .inl rfl⟩
    · exact .inr ⟨nofun, .inl rfl⟩
  | storage c => cases c <;> exact .inr ⟨nofun, .inr rfl⟩
  | attributes => exact .inr ⟨nofun, .inr rfl⟩

theorem baseType_visit (tags : Tags) (s : MemberScan) {node : Node} (h : isRegisterSpecifier node.kind = true) :
    (registerVisit tags s node).baseType = specifierToLlvmType tags node := by
  rw [registerVisit, if_pos h]
  by_cases hrecord : node.isRecord = true
  · have hkind : node.kind = 4 ∨ node.kind = 5 := by simpa [Node.isRecord] using hrecord
    rw [if_pos hrecord]
    simp [MemberScan.baseType, hkind]
  · have hkind : ¬ (node.kind = 4 ∨ node.kind = 5) := by simpa [Node.isRecord] using hrecord
    have hident : node.kind ≠ 60 := by
      intro hident
      rw [hident] at h
      cases h
    rw [if_neg hrecord, MemberScan.baseType, if_neg hkind, specifierToLlvmType, if_neg hrecord,
      if_neg hident]

theorem chainScan (tags : Tags) (specs : List Specifier) : ChainScan tags specs (scanChain tags specs) := by
  induction specs using List.reverseRecOn with
  | nil => exact ⟨rfl, rfl, by simp [scanChain, MemberScan.start], fun _ => rfl⟩
  | append_singleton specs spec ih =>
    have hstep : scanChain tags (specs ++ [spec]) =
        registerVisit tags (scanChain tags specs) spec.node := by
      rw [scanChain, List.map_append, List.foldl_append]
      rfl
    rw [hstep]
    obtain ⟨harray, hbitfield, hpointer, hbase⟩ := ih
    rcases specifier_cases spec with rfl | ⟨hne, hregister | hother⟩
    · -- an alias of a pointer type
      exact ⟨harray, hbitfield, iff_of_true rfl (by simp), fun h => absurd (by simp) h⟩
    · have hmember : isMemberNode spec.node.kind = true := by simp [isMemberNode, hregister]
      have hvisit : ∃ kind nested, registerVisit tags (scanChain tags specs) spec.node =
          { scanChain tags specs with baseKind := kind, nested := nested } := by
        rw [registerVisit, if_pos hregister]
        split
        · exact ⟨_, _, rfl⟩
        · exact ⟨_, _, rfl⟩
      have hbaseType := baseType_visit tags (scanChain tags specs) hregister
      obtain ⟨kind, nested, heq⟩ := hvisit
      rw [heq] at hbaseType ⊢
      refine ⟨harray, hbitfield, ?_, fun _ => ?_⟩
      · rw [List.mem_append, List.mem_singleton, ← hpointer]
        exact ⟨.inl, fun h => h.resolve_right fun h => hne h.symm⟩
      · have hlast : ([spec].filter fun spec => isMemberNode spec.node.kind) = [spec] := by
          simp [hmember]
        rw [hbaseType, List.filter_append, hlast, List.getLast?_concat]
        rfl
    · rw [registerVisit_other hother]
      refine ⟨harray, hbitfield, ?_, fun h => ?_⟩
      · rw [List.mem_append, List.mem_singleton, ← hpointer]
        exact ⟨.inl, fun h => h.resolve_right fun h => hne h.symm⟩
      · have hlast : ([spec].filter fun spec => isMemberNode spec.node.kind) = [] := by
          simp [hother]
        rw [hbase fun hmem => h (List.mem_append_left _ hmem), List.filter_append, hlast,
          List.append_nil]

/-- In a member the last specifier says the type. -/
theorem member_iff {specs : List Specifier} {t : SpecifiedType} (hnames : Names specs t)
    (h : specs.all (fun spec => quietBelow spec.node) = true) (n : ℕ) :
    (memberType tags specs).map allocSize = some n ↔
      ((specs.filter fun spec => isMemberNode spec.node.kind).getLast?.map
        (standsFor tags)).getD 4 = n := by
  obtain ⟨harray, hbitfield, hpointer, hbase⟩ := chainScan tags specs
  rw [memberType_quiet h hbitfield, Option.map_some, Option.some_inj]
  have hsize : ∀ last : Option Specifier,
      allocSize ((last.map fun spec => specifierToLlvmType tags spec.node).getD (.int 32)) =
        (last.map (standsFor tags)).getD 4 := by
    intro last
    cases last with
    | none => rfl
    | some spec => exact allocSize_specifier spec
  by_cases halias : Specifier.word .pointerAlias ∈ specs
  · have hone : ∀ spec ∈ specs, isMemberNode spec.node.kind = true → spec = .word .pointerAlias :=
      hnames.alias_alone halias
    have hlast : (specs.filter fun spec => isMemberNode spec.node.kind).getLast? =
        some (.word .pointerAlias) := by
      have hmem : Specifier.word .pointerAlias ∈
          specs.filter fun spec => isMemberNode spec.node.kind :=
        List.mem_filter.2 ⟨halias, rfl⟩
      obtain ⟨last, hlast⟩ := Option.isSome_iff_exists.1
        (List.getLast?_isSome.2 (List.ne_nil_of_mem hmem))
      obtain ⟨hin, hkind⟩ := List.mem_filter.1 (List.mem_of_getLast? hlast)
      rw [hlast, hone last hin hkind]
    rw [hlast, MemberScan.registeredType, harray, if_pos (hpointer.2 halias)]
    exact Iff.rfl
  · have hnone : ¬ (scanChain tags specs).hasPointer = true := fun h => halias (hpointer.1 h)
    rw [MemberScan.registeredType, harray]
    simp only [if_neg hnone]
    rw [hbase halias, hsize]

end Members

section Main

variable {typedefKinds : String → Option (ℕ × ℕ)} {tags : Tags}

/-- A record of a known size is complete. -/
theorem Names.complete {specs : List Specifier} {t : SpecifiedType} (h : Names specs t) {n : ℕ}
    (hsize : t.size tags = some n) (r : RecordSpecifier) (hr : r ∈ records specs) :
    ∃ st, structInfoForSpec tags r.node = some st := by
  cases h with
  | words _ _ hrecords =>
    rw [hrecords] at hr
    cases hr
  | enum _ hrecords =>
    rw [hrecords] at hr
    cases hr
  | record _ hrecords =>
    rw [hrecords, List.mem_singleton] at hr
    subst hr
    obtain ⟨st, hst, -⟩ := Option.map_eq_some_iff.1 hsize
    exact ⟨st, hst⟩

theorem sizeOrder_iff {specs : List Specifier} {t : SpecifiedType} (h : Names specs t) {n : ℕ}
    (hsize : t.size tags = some n) :
    (∀ place : Place, (place.type tags specs).map allocSize = some n) ↔ SizeOrder tags specs n := by
  have hmember : (memberType tags specs).map allocSize = some n ↔
      if specs.all fun spec => quietBelow spec.node then
        ((specs.filter fun spec => isMemberNode spec.node.kind).getLast?.map
          (standsFor tags)).getD 4 = n
      else (memberType tags specs).map allocSize = some n := by
    split_ifs with hquiet
    · exact member_iff h hquiet n
    · exact Iff.rfl
  have hblock := block_iff n (h.complete hsize)
  constructor
  · intro hall
    exact ⟨hmember.1 (hall .member), hblock.1 (hall .block), (file_iff specs n).1 (hall .file),
      (initialized_iff specs n).1 (hall .initialized),
      (parameter_iff h.words_ne_nil n).1 (hall .parameter)⟩
  · intro horder place
    cases place with
    | member => exact hmember.2 horder.member
    | block => exact hblock.2 horder.block
    | file => exact (file_iff specs n).2 horder.file
    | initialized => exact (initialized_iff specs n).2 horder.initialized
    | parameter => exact (parameter_iff h.words_ne_nil n).2 horder.parameter

end Main

end OpticC.Sizes

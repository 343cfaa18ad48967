import Mathlib.Data.List.Basic
import Mathlib.Tactic.Common
import OpticC.Lib.Memo

/-! The cache of objects of `compile_source_to_object_with_stats_impl`. The key is made of the
source text and the flags, so an object can be restored whose headers have changed since, or
that another file with the same text was compiled to. -/

namespace OpticC.Build.Cache

abbrev FileSystem := String → Option String

theorem noEntries_sorted : ([] : List (String × String)).Pairwise fun a b => a.1 < b.1 := .nil

/-- The defines, as a map iterated in the order of the names. -/
structure Defines where
  entries : List (String × String)
  sorted : entries.Pairwise fun a b => a.1 < b.1

/-- What a compilation is asked for. -/
structure Request where
  source : String
  includePaths : List String
  forceIncludes : List String
  defines : Defines
  optimization : ℕ
  nostdinc : Bool
  returnThunkExtern : Bool

inductive BuildError where
  | compileError (file message : String)
  | externalToolError (tool message : String)
  deriving DecidableEq, Repr

/-- What a compilation depends on: the text, the request with its path, and the files that are
included, as the search of the request finds them. -/
structure Input where
  text : String
  request : Request
  included : List (String × String)

/-- The compiler behind the cache, from the preprocessor to `llc`. -/
structure Compiler (Object : Type) where
  included : FileSystem → Request → List (String × String)
  compile : Input → Except BuildError Object
  /-- The message of a source that cannot be read. -/
  readError : String → String

def cacheSchemaVersion : String := "v5-lvalue-array-index-fix"

/-- The flags that name files and macros. -/
def Request.namedFlags (r : Request) : List String :=
  r.includePaths.map (fun path => "-I" ++ path) ++
    r.forceIncludes.map (fun path => "-include" ++ path) ++
      r.defines.entries.map (fun entry => "-D" ++ entry.1 ++ "=" ++ entry.2)

def Request.flags (r : Request) : List String :=
  r.namedFlags ++ ["-O" ++ toString r.optimization, "--cache-schema=" ++ cacheSchemaVersion] ++
    (if r.nostdinc then ["-nostdinc"] else []) ++
      (if r.returnThunkExtern then ["-mfunction-return=thunk-extern"] else [])

structure CacheKey (Hash : Type) where
  sourceHash : Hash
  flagsHash : Hash
  deriving DecidableEq

section Key

variable {Hash : Type} (sha : String → Hash)

/-- The flags go into the hash one after the other, with nothing between them. -/
def CacheKey.new (source : String) (flags : List String) : CacheKey Hash :=
  ⟨sha source, sha (String.join flags)⟩

def buildCacheKey (i : Input) : CacheKey Hash :=
  CacheKey.new sha i.text i.request.flags

end Key

section Keys

variable {Hash : Type} (sha : String → Hash)

/-- Digits in front of something that does not begin with one are read off together. -/
theorem digits_append_inj {isDigit : Char → Bool} {ds es rest rest' : List Char} {c : Char}
    (hds : ∀ d ∈ ds, isDigit d = true) (hes : ∀ e ∈ es, isDigit e = true)
    (hc : isDigit c = false) (h : ds ++ c :: rest = es ++ c :: rest') : ds = es ∧ rest = rest' := by
  have htake : ∀ {xs ys : List Char}, (∀ x ∈ xs, isDigit x = true) →
      (xs ++ c :: ys).takeWhile isDigit = xs := by
    intro xs ys hxs
    rw [List.takeWhile_append_of_pos hxs, List.takeWhile_cons_of_neg (by simp [hc]), List.append_nil]
  have hdses : ds = es := by rw [← htake hds, h, htake hes]
  subst hdses
  exact ⟨rfl, (List.cons.inj (List.append_cancel_left h)).2⟩

/-- The optimisation level is what stands between the last `-O` and the schema. -/
theorem optimizationFlag_inj {a b : List Char} {m n : ℕ}
    (h : a ++ '-' :: 'O' :: Nat.toDigits 10 m = b ++ '-' :: 'O' :: Nat.toDigits 10 n) :
    a = b ∧ m = n := by
  have hdigits : ∀ k : ℕ, ∀ c ∈ (Nat.toDigits 10 k).reverse, c.isDigit = true := fun k c hc =>
    Nat.isDigit_of_mem_toDigits (by decide) (by decide) (List.mem_reverse.1 hc)
  have hrev := congrArg List.reverse h
  simp only [List.reverse_append, List.reverse_cons, List.append_assoc, List.singleton_append] at hrev
  obtain ⟨hmn, hab⟩ := digits_append_inj (hdigits m) (hdigits n) (by decide) hrev
  have hrest := (List.cons.inj hab).2
  refine ⟨List.reverse_injective hrest, ?_⟩
  rw [← Nat.ofDigitChars_ten_toDigits (n := m), List.reverse_injective hmn,
    Nat.ofDigitChars_ten_toDigits]

/-- The end of the flags, as characters. -/
def schemaChars : List Char := "--cache-schema=v5-lvalue-array-index-fix".toList

def nostdincChars (nostdinc : Bool) : List Char := if nostdinc then "-nostdinc".toList else []

def thunkChars (thunk : Bool) : List Char :=
  if thunk then "-mfunction-return=thunk-extern".toList else []

theorem nostdincChars_last (n : Bool) :
    (schemaChars ++ nostdincChars n).getLast? = some (if n then 'c' else 'x') := by
  cases n <;> decide

theorem thunkChars_last (n t : Bool) :
    (schemaChars ++ nostdincChars n ++ thunkChars t).getLast? =
      some (if t then 'n' else if n then 'c' else 'x') := by
  cases n <;> cases t <;> decide

theorem last_eq_of_append {xs ys end₁ end₂ : List Char} {c d : Char}
    (hc : end₁.getLast? = some c) (hd : end₂.getLast? = some d) (h : xs ++ end₁ = ys ++ end₂) :
    c = d := by
  have hlast := congrArg List.getLast? h
  simpa only [List.getLast?_append, hc, hd, Option.some_or, Option.some.injEq] using hlast

theorem switchChars_inj {xs ys : List Char} {m n s t : Bool}
    (h : xs ++ (schemaChars ++ nostdincChars m ++ thunkChars s) =
      ys ++ (schemaChars ++ nostdincChars n ++ thunkChars t)) : xs = ys ∧ m = n ∧ s = t := by
  have hst : s = t := by
    have hlast := last_eq_of_append (thunkChars_last m s) (thunkChars_last n t) h
    revert hlast
    cases m <;> cases n <;> cases s <;> cases t <;> decide
  subst hst
  simp only [← List.append_assoc] at h
  have hrest := List.append_cancel_right h
  have hmn : m = n := by
    rw [List.append_assoc, List.append_assoc] at hrest
    have hlast := last_eq_of_append (nostdincChars_last m) (nostdincChars_last n) hrest
    revert hlast
    cases m <;> cases n <;> decide
  subst hmn
  exact ⟨List.append_cancel_right (List.append_cancel_right hrest), rfl, rfl⟩

theorem flags_toList (r : Request) :
    (String.join r.flags).toList =
      (String.join r.namedFlags).toList ++ '-' :: 'O' :: Nat.toDigits 10 r.optimization ++
        (schemaChars ++ nostdincChars r.nostdinc ++ thunkChars r.returnThunkExtern) := by
  have hO : ("-O" ++ toString r.optimization).toList =
      '-' :: 'O' :: Nat.toDigits 10 r.optimization := by
    rw [String.toList_append, ← Nat.toList_repr]
    rfl
  have hschema : ("--cache-schema=" ++ cacheSchemaVersion).toList = schemaChars := by decide
  have hnostdinc : (String.join (if r.nostdinc then ["-nostdinc"] else [])).toList =
      nostdincChars r.nostdinc := by
    cases r.nostdinc
    · simp [nostdincChars]
    · simp [nostdincChars]
  have hthunk : (String.join (if r.returnThunkExtern then ["-mfunction-return=thunk-extern"]
      else [])).toList = thunkChars r.returnThunkExtern := by
    cases r.returnThunkExtern
    · simp [thunkChars]
    · simp [thunkChars]
  rw [Request.flags, String.join_append, String.join_append, String.join_append, String.join_cons,
    String.join_cons, String.join_nil]
  rw [String.toList_append] at hO hschema
  simp only [String.toList_append, hO, hschema, hnostdinc, hthunk, String.toList_empty,
    List.append_assoc, List.cons_append, List.nil_append]

/-- What the key tells apart. Of the flags that name files and macros it has the text only,
and it has nothing of the path of the source and of the headers. -/
theorem buildCacheKey_eq_iff (hsha : Function.Injective sha) (i j : Input) :
    buildCacheKey sha i = buildCacheKey sha j ↔
      i.text = j.text ∧ String.join i.request.namedFlags = String.join j.request.namedFlags ∧
        i.request.optimization = j.request.optimization ∧
          i.request.nostdinc = j.request.nostdinc ∧
            i.request.returnThunkExtern = j.request.returnThunkExtern := by
  simp only [buildCacheKey, CacheKey.new, CacheKey.mk.injEq, hsha.eq_iff]
  refine and_congr_right fun _ => ?_
  rw [← String.toList_inj, flags_toList, flags_toList]
  constructor
  · intro h
    obtain ⟨hfront, hnostdinc, hthunk⟩ := switchChars_inj h
    obtain ⟨hnamed, hlevel⟩ := optimizationFlag_inj hfront
    exact ⟨String.toList_inj.1 hnamed, hlevel, hnostdinc, hthunk⟩
  · rintro ⟨hnamed, hlevel, hnostdinc, hthunk⟩
    rw [hnamed, hlevel, hnostdinc, hthunk]

end Keys

section Build

variable {Object Hash : Type} [DecidableEq Hash] (C : Compiler Object) (sha : String → Hash)

structure State (Object Hash : Type) where
  files : FileSystem
  cache : Memo.Table (CacheKey Hash) Object

def restoreCachedObject (s : State Object Hash) (key : CacheKey Hash) : Option Object :=
  s.cache key

def storeCachedObject (s : State Object Hash) (key : CacheKey Hash) (object : Object) :
    State Object Hash :=
  { s with cache := Function.update s.cache key (some object) }

def inputOf (files : FileSystem) (r : Request) : Option Input :=
  (files r.source).map fun text => ⟨text, r, C.included files r⟩

/-- `compile_source_to_object_with_stats_impl`: the object that it leaves, or its error. -/
def compileSourceToObject (s : State Object Hash) (r : Request) :
    Except BuildError Object × State Object Hash :=
  match inputOf C s.files r with
  | none => (.error (.compileError r.source (C.readError r.source)), s)
  | some i =>
    match restoreCachedObject s (buildCacheKey sha i) with
    | some object => (.ok object, s)
    | none =>
      match C.compile i with
      | .error e => (.error e, s)
      | .ok object => (.ok object, storeCachedObject s (buildCacheKey sha i) object)

/-- The same compilation with nothing in the cache. -/
def freshCompilation (files : FileSystem) (r : Request) : Except BuildError Object :=
  (compileSourceToObject C sha ⟨files, Memo.Table.empty⟩ r).1

/-- The object that is restored for the request, if one is. -/
def restored (s : State Object Hash) (r : Request) : Option Object :=
  (inputOf C s.files r).bind fun i => restoreCachedObject s (buildCacheKey sha i)

variable {C sha} in
theorem compileSourceToObject_restored {s : State Object Hash} {r : Request} {object : Object}
    (h : restored C sha s r = some object) :
    compileSourceToObject C sha s r = (.ok object, s) := by
  obtain ⟨i, hi, hobject⟩ := Option.bind_eq_some_iff.1 h
  simp only [compileSourceToObject, hi, hobject]

inductive Action where
  /-- A file gets a new text, or goes away. -/
  | edit (path : String) (text : Option String)
  | build (r : Request)

def act (s : State Object Hash) : Action → State Object Hash
  | .edit path text => { s with files := Function.update s.files path text }
  | .build r => (compileSourceToObject C sha s r).2

/-- The state after the actions, with an empty cache before them. -/
def stateAfter (files : FileSystem) (actions : List Action) : State Object Hash :=
  actions.foldl (act C sha) ⟨files, Memo.Table.empty⟩

/-- Every object that a build of the run restores is the one that the files of that moment
compile to. -/
def CacheSound (files : FileSystem) (actions : List Action) : Prop :=
  ∀ earlier r later object, actions = earlier ++ Action.build r :: later →
    restored C sha (stateAfter C sha files earlier) r = some object →
      freshCompilation C sha (stateAfter C sha files earlier).files r = .ok object

end Build

end OpticC.Build.Cache

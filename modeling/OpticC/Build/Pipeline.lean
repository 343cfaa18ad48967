import OpticC.Lib.Faults

/-! From a source file to its IR. The functions that parse one external declaration and lower
one node are left open, and whatever comes up inside them is counted: what is shown here is
what the loops around them and `compile_to_ir_artifacts` do with it. -/

namespace OpticC.Build

open Faults

structure ParseError where
  message : String
  line : ℕ
  column : ℕ
  deriving DecidableEq, Repr

inductive BackendError where
  | unknownNodeKind (kind : ℕ)
  | invalidNode
  | undefinedVariable (name : String)
  | undefinedFunction (name : String)
  | invalidOperator (op : ℕ)
  | verificationFailed (msg : String)
  | ioError (msg : String)
  deriving DecidableEq, Repr

def BackendError.display : BackendError → String
  | unknownNodeKind kind => s!"Unknown AST node kind: {kind}"
  | invalidNode => "Invalid AST node"
  | undefinedVariable name => s!"Undefined variable: {name}"
  | undefinedFunction name => s!"Undefined function: {name}"
  | invalidOperator op => s!"Invalid operator code: {op}"
  | verificationFailed msg => s!"LLVM verification failed: {msg}"
  | ioError msg => s!"I/O error: {msg}"

/-- What may come up on the way. -/
inductive Fault where
  /-- A production of the grammar fails. -/
  | production (e : ParseError)
  /-- Error recovery skips a token. -/
  | skipped
  | lowering (e : BackendError)
  /-- The module does not verify. -/
  | unverified
  deriving DecidableEq, Repr

/-- The parser, its states and the nodes that it makes. -/
structure Frontend (Token Node : Type) where
  State : Type
  load : List Token → State
  atEnd : State → Bool
  advance : State → State
  parseExternalDeclaration : Comp State Fault ParseError Node
  /-- The tokens left. A declaration takes one at least, and so does what follows an error. -/
  remaining : State → ℕ
  decl_lt : ∀ s node, (parseExternalDeclaration s).result = .ok node →
    remaining (parseExternalDeclaration s).state < remaining s
  skip_lt : ∀ s e, atEnd s = false → (parseExternalDeclaration s).result = .error e →
    remaining (advance (parseExternalDeclaration s).state) < remaining s

/-- The lowering, its states and what it does with one node. -/
structure Backend (Node : Type) where
  State : Type
  start : State
  kind : Node → ℕ
  /-- `collect_typedef_aliases`, `collect_static_function_names`, `compute_reachable_functions`
  and the registration of records. -/
  collect : List Node → State → State
  preRegisterFuncDef : Node → Comp State Fault BackendError Unit
  lowerFuncDecl : Node → Comp State Fault BackendError Unit
  lowerGlobalDecl : Node → Comp State Fault BackendError Unit
  lowerGlobalVar : Node → Comp State Fault BackendError Unit
  /-- `lower_func_def` up to the body; `false` when the function is not reachable. -/
  enterFuncDef : Node → Comp State Fault BackendError Bool
  body : Node → List Node
  lowerStmt : Node → Comp State Fault BackendError Unit
  /-- The return that ends the last block. -/
  finishFuncDef : Node → Comp State Fault BackendError Unit
  typedefAliases : State → List String
  staticDeclaredFunctions : State → List String
  /-- Gives the function a body, if there is one of the name without. -/
  materializeMissingFunctionBody : String → Bool → Comp State Fault BackendError Unit
  verify : State → Bool
  dumpIr : State → String

namespace Backend

variable {Node : Type} (B : Backend Node)

/-- Errors in single statements are skipped to keep compiling. -/
def lowerFuncDef (node : Node) : Comp B.State Fault BackendError Unit :=
  andThen (B.enterFuncDef node) fun reachable =>
    if reachable then
      andThen (each (fun stmt => ignore (B.lowerStmt stmt)) (B.body node)) fun _ =>
        B.finishFuncDef node
    else succeed ()

/-- The first pass over a node. -/
def prescan (node : Node) : Comp B.State Fault BackendError Unit :=
  if B.kind node = 23 then ignore (B.preRegisterFuncDef node)
  else if B.kind node = 22 then ignore (B.lowerFuncDecl node)
  else if B.kind node = 20 then ignore (B.lowerFuncDecl node)
  else succeed ()

/-- The second pass over a node. -/
def lowerNode (node : Node) : Comp B.State Fault BackendError Unit :=
  if B.kind node = 20 then ignore (B.lowerGlobalDecl node)
  else if B.kind node = 21 then ignore (B.lowerGlobalVar node)
  else if B.kind node = 22 then ignore (B.lowerFuncDecl node)
  else if B.kind node = 23 then ignore (B.lowerFuncDef node)
  else succeed ()

/-- The two passes. -/
def lowerNodes (nodes : List Node) : Comp B.State Fault BackendError Unit :=
  andThen (modifyState (B.collect nodes)) fun _ =>
    andThen (each B.prescan nodes) fun _ => each B.lowerNode nodes

/-- The functions that were declared and have no body get one. -/
def materialize : Comp B.State Fault BackendError Unit := fun s =>
  andThen (each (fun name => B.materializeMissingFunctionBody name true) (B.typedefAliases s))
    (fun _ => andThen
      (each (fun name => B.materializeMissingFunctionBody name false) (B.staticDeclaredFunctions s))
      fun _ => B.materializeMissingFunctionBody "sqlite3OsDlSym" false) s

def lowerTranslationUnit (nodes : List Node) : Comp B.State Fault BackendError Unit :=
  andThen (B.lowerNodes nodes) fun _ => B.materialize

end Backend

/-- `prepare` opens the database, preprocesses the file and creates the arena. -/
structure Compiler (Source : Type) where
  Token : Type
  Node : Type
  prepare : Source → Except String (List Token)
  frontend : Frontend Token Node
  backend : Backend Node

/-- The loop of `parse_translation_unit`: the nodes, and what came up. -/
def Frontend.parseTranslationUnit {Token Node : Type} (F : Frontend Token Node) (s : F.State) :
    List Node × List Fault :=
  if _hend : F.atEnd s then ([], [])
  else
    match _h : (F.parseExternalDeclaration s).result with
    | .ok node =>
      let (nodes, faults) := F.parseTranslationUnit (F.parseExternalDeclaration s).state
      (node :: nodes, (F.parseExternalDeclaration s).faults ++ faults)
    | .error _ =>
      let (nodes, faults) := F.parseTranslationUnit (F.advance (F.parseExternalDeclaration s).state)
      (nodes, (F.parseExternalDeclaration s).faults ++ .skipped :: faults)
termination_by F.remaining s
decreasing_by
  · exact F.decl_lt s node _h
  · exact F.skip_lt s _ (by simpa using _hend) _h

section Loop

variable {Token Node : Type} (F : Frontend Token Node) {s : F.State}

theorem Frontend.parseTranslationUnit_atEnd (hend : F.atEnd s = true) :
    F.parseTranslationUnit s = ([], []) := by
  unfold Frontend.parseTranslationUnit
  exact dif_pos hend

/-- A declaration that fails leaves no node, and the loop goes on behind it. -/
theorem Frontend.parseTranslationUnit_error {e : ParseError} {nodes : List Node}
    {faults : List Fault} (hend : F.atEnd s = false)
    (he : (F.parseExternalDeclaration s).result = .error e)
    (hrest : F.parseTranslationUnit (F.advance (F.parseExternalDeclaration s).state) =
      (nodes, faults)) :
    F.parseTranslationUnit s =
      (nodes, (F.parseExternalDeclaration s).faults ++ .skipped :: faults) := by
  rw [Frontend.parseTranslationUnit, dif_neg (by simp [hend])]
  split
  · rename_i h
    rw [he] at h
    cases h
  · rw [hrest]

end Loop

variable {Source : Type} (C : Compiler Source)

/-- The parse of the tokens. It has no error of its own. -/
def parseTokens (tokens : List C.Token) : List C.Node × List Fault :=
  C.frontend.parseTranslationUnit (C.frontend.load tokens)

/-- The lowering of the nodes. -/
def compile (nodes : List C.Node) : Outcome C.backend.State Fault BackendError Unit :=
  C.backend.lowerTranslationUnit nodes C.backend.start

/-- The result, and what came up on the way to it. -/
def compileToIrArtifacts (src : Source) : Except String String × List Fault :=
  match C.prepare src with
  | .error e => (.error e, [])
  | .ok tokens =>
    let (nodes, faults) := parseTokens C tokens
    let lowered := compile C nodes
    match lowered.result with
    | .error e => (.error s!"Backend compilation error: {e.display}", faults ++ lowered.faults)
    | .ok () =>
      (.ok (C.backend.dumpIr lowered.state), faults ++ lowered.faults ++
        -- the answer of `verify` is discarded
        if C.backend.verify lowered.state then [] else [.unverified])

/-- Compilation fails when anything has come up. -/
def FailsLoudly (src : Source) : Prop :=
  (compileToIrArtifacts C src).2 ≠ [] → ∃ e, (compileToIrArtifacts C src).1 = .error e

section Passes

variable {Node : Type} (B : Backend Node)

theorem succeeds_prescan (node : Node) : Succeeds (B.prescan node) := by
  unfold Backend.prescan
  repeat' split
  · exact succeeds_ignore _
  · exact succeeds_ignore _
  · exact succeeds_ignore _
  · exact succeeds_succeed

theorem succeeds_lowerNode (node : Node) : Succeeds (B.lowerNode node) := by
  unfold Backend.lowerNode
  repeat' split
  · exact succeeds_ignore _
  · exact succeeds_ignore _
  · exact succeeds_ignore _
  · exact succeeds_ignore _
  · exact succeeds_succeed

/-- Whatever fails in a declaration, the passes go on to the end. -/
theorem succeeds_lowerNodes (nodes : List Node) : Succeeds (B.lowerNodes nodes) :=
  (succeeds_modifyState _).andThen
    ((Succeeds.each (succeeds_prescan B) nodes).andThen (Succeeds.each (succeeds_lowerNode B) nodes))

/-- The lowering fails only in the bodies it makes up. -/
theorem lowerTranslationUnit_result (nodes : List Node) (s : B.State) :
    (B.lowerTranslationUnit nodes s).result =
      (B.materialize (B.lowerNodes nodes s).state).result :=
  (andThen_eq (succeeds_lowerNodes B nodes) (fun _ => B.materialize) s).1

end Passes

/-- Nothing comes up in the parse, the passes and the made up bodies, and the module verifies. -/
structure Clean (tokens : List C.Token) : Prop where
  parse : (parseTokens C tokens).2 = []
  passes : (C.backend.lowerNodes (parseTokens C tokens).1 C.backend.start).faults = []
  bodies : (C.backend.materialize
    (C.backend.lowerNodes (parseTokens C tokens).1 C.backend.start).state).faults = []
  verifies : C.backend.verify (C.backend.materialize
    (C.backend.lowerNodes (parseTokens C tokens).1 C.backend.start).state).state = true

/-- Making up a body fails. -/
def BodyFails (tokens : List C.Token) : Prop :=
  ∃ e, (C.backend.materialize
    (C.backend.lowerNodes (parseTokens C tokens).1 C.backend.start).state).result = .error e

theorem compile_eq (nodes : List C.Node) :
    (compile C nodes).result =
        (C.backend.materialize (C.backend.lowerNodes nodes C.backend.start).state).result ∧
      (compile C nodes).state =
        (C.backend.materialize (C.backend.lowerNodes nodes C.backend.start).state).state ∧
      (compile C nodes).faults = (C.backend.lowerNodes nodes C.backend.start).faults ++
        (C.backend.materialize (C.backend.lowerNodes nodes C.backend.start).state).faults :=
  andThen_eq (succeeds_lowerNodes C.backend nodes) (fun _ => C.backend.materialize) C.backend.start

theorem clean_iff (tokens : List C.Token) :
    Clean C tokens ↔
      (parseTokens C tokens).2 ++ (compile C (parseTokens C tokens).1).faults ++
        (if C.backend.verify (compile C (parseTokens C tokens).1).state then [] else
          [Fault.unverified]) = [] := by
  obtain ⟨-, hstate, hfaults⟩ := compile_eq C (parseTokens C tokens).1
  rw [hstate, hfaults, List.append_eq_nil_iff, List.append_eq_nil_iff, List.append_eq_nil_iff]
  constructor
  · rintro ⟨hparse, hpasses, hbodies, hverifies⟩
    exact ⟨⟨hparse, hpasses, hbodies⟩, if_pos hverifies⟩
  · rintro ⟨⟨hparse, hpasses, hbodies⟩, hverifies⟩
    refine ⟨hparse, hpasses, hbodies, ?_⟩
    split at hverifies
    · assumption
    · cases hverifies

/-- A file that is one `)`: no declaration begins with it, and there is nothing to lower. -/
def strayParen : Compiler Unit where
  Token := String
  Node := Unit
  prepare := fun _ => .ok [")"]
  frontend :=
    { State := List String
      load := id
      atEnd := List.isEmpty
      advance := List.tail
      parseExternalDeclaration := fun s =>
        ⟨.error ⟨"Expected type specifier", 1, 1⟩, s,
          [.production ⟨"Expected type specifier", 1, 1⟩], fun _ _ => nofun⟩
      remaining := List.length
      decl_lt := fun _ _ h => nomatch h
      skip_lt := fun s _ hend _ => by cases s <;> simp_all }
  backend :=
    { State := Unit
      start := ()
      kind := fun _ => 0
      collect := fun _ s => s
      preRegisterFuncDef := fun _ => succeed ()
      lowerFuncDecl := fun _ => succeed ()
      lowerGlobalDecl := fun _ => succeed ()
      lowerGlobalVar := fun _ => succeed ()
      enterFuncDef := fun _ => succeed true
      body := fun _ => []
      lowerStmt := fun _ => succeed ()
      finishFuncDef := fun _ => succeed ()
      typedefAliases := fun _ => []
      staticDeclaredFunctions := fun _ => []
      materializeMissingFunctionBody := fun _ _ => succeed ()
      verify := fun _ => true
      dumpIr := fun _ => "" }

theorem parseTokens_strayParen : parseTokens strayParen [")"] =
    ([], [.production ⟨"Expected type specifier", 1, 1⟩, .skipped]) := by
  have hend := Frontend.parseTranslationUnit_atEnd strayParen.frontend (s := ([] : List String)) rfl
  exact Frontend.parseTranslationUnit_error strayParen.frontend (s := ([")"] : List String)) rfl rfl
    hend

end OpticC.Build

import OpticC.Backend.SpecifierOrders
import OpticC.Frontend.Statements

/-! Declarations at block scope and at file scope. Both register the names of typedefs, each with
the kind that its specifiers come to. -/

namespace OpticC

namespace Grammar

section Typedefs

/-- `find_declarator_name`, with a bound on the depth. -/
def findDeclaratorName (a : Arena) : ℕ → ℕ → Option String
  | 0, _ => none
  | depth + 1, offset =>
    (a.get offset).bind fun n =>
      if n.kind = 60 then a.getString n.data
      else
        (if n.firstChild ≠ 0 then findDeclaratorName a depth n.firstChild else none).or
          (if n.nextSibling ≠ 0 then findDeclaratorName a depth n.nextSibling else none)

/-- `declarator_contains_pointer`, with a bound on the depth. -/
def declaratorContainsPointer (a : Arena) : ℕ → ℕ → Bool
  | 0, _ => false
  | depth + 1, offset =>
    (a.get offset).any fun n =>
      n.kind = 7 || (n.firstChild ≠ 0 && declaratorContainsPointer a depth n.firstChild) ||
        (n.nextSibling ≠ 0 && declaratorContainsPointer a depth n.nextSibling)

/-- The loop of `resolve_specifier_chain_kind`, with a bound on the length of the chain. -/
def visitSpecifiers (p : Parser) : ℕ → ℕ → Sizes.SpecifierState → Sizes.SpecifierState
  | 0, _, s => s
  | length + 1, offset, s =>
    if offset = 0 then s
    else
      match p.arena.get offset with
      | none => s
      | some n =>
        let text := p.arena.getString n.data
        visitSpecifiers p length n.nextSibling
          (s.visit (if text.isSome then p.typedefKinds else fun _ => none)
            (.mk n.kind n.data (text.getD "") []))

def resolveSpecifierChainKind (p : Parser) (first : ℕ) : ℕ × ℕ :=
  (visitSpecifiers p p.arena.nodeAllocated first .start).resolved

/-- The declared name becomes a type name, of the kind of its specifiers or a pointer. -/
def registerTypedef (specifiers declarator : ℕ) : ParserM Unit :=
  modify fun p =>
    match findDeclaratorName p.arena p.arena.nodeAllocated declarator with
    | none => p
    | some name =>
      let (kind, tag) := resolveSpecifierChainKind p specifiers
      let pointer := declaratorContainsPointer p.arena p.arena.nodeAllocated declarator
      { p with
        typedefNames := Function.update p.typedefNames name true
        typedefKinds :=
          Function.update p.typedefKinds name (some (if pointer then 7 else kind, tag)) }

end Typedefs

section Block

/-- The loop over the declarators of a declaration in a block. -/
def parseInitDeclarators (S : Grammar) (isTypedef : Bool) (specifiers : ℕ) :
    ℕ → ℕ × ℕ → ParserM (ℕ × ℕ)
  | 0, _ => throw .outOfFuel
  | fuel + 1, chain => do
    let declarator ← S.declarator
    if isTypedef && declarator ≠ 0 then registerTypedef specifiers declarator
    skipAsmLabel
    let chain ← parseAttributeLists S fuel chain
    skipAsmLabel
    let item ←
      if ← skipPunctuator "=" then do
        let t := (← get).currentToken
        let init ←
          if Parser.isPunct t "." || Parser.isPunct t "[" then parseDesignatedInit S
          else S.initializer
        if declarator ≠ 0 then setNextSibling declarator init
        allocNode 73 19 0 declarator 0
      else pure declarator
    let chain ← linkSiblings chain item
    if ← skipPunctuator ";" then return chain
    else if ← skipPunctuator "," then parseInitDeclarators S isTypedef specifiers fuel chain
    else
      let _ ← skipPunctuator ";"
      return chain

def parseDeclaration (S : Grammar) (fuel : ℕ) : ParserM ℕ := do
  let isTypedef := (← get).currentToken.text == "typedef"
  let specifiers ← S.declarationSpecifiers
  let chain ←
    if ← skipPunctuator ";" then pure (0, 0)
    else parseInitDeclarators S isTypedef specifiers fuel (0, 0)
  if chain.1 ≠ 0 then appendAtEnd specifiers chain.1
  allocNode 21 0 0 specifiers 0

end Block

section File

/-- The first declarator, linked behind the specifiers. With an initializer the declaration
becomes a node of its own. -/
def parseFirstDeclarator (S : Grammar) (isTypedef : Bool) (specifiers fuel : ℕ) (chain : ℕ × ℕ) :
    ParserM (ℕ × ℕ) := do
  let declarator ← S.declarator
  if isTypedef && declarator ≠ 0 then registerTypedef specifiers declarator
  skipAsmLabel
  let chain ← parseAttributeLists S fuel chain
  skipAsmLabel
  if ← skipPunctuator "=" then
    let init ← S.initializer
    let initDecl ← allocNode 73 0 0 declarator 0
    setNextSibling declarator init
    let varDecl ← allocNode 21 0 0 specifiers 0
    if specifiers ≠ 0 then appendAtEnd specifiers initDecl
    return (varDecl, varDecl)
  else linkSiblings chain declarator

/-- The loop over the declarators behind the first one. -/
def parseMoreDeclarators (S : Grammar) : ℕ → ℕ × ℕ → ParserM (ℕ × ℕ)
  | 0, _ => throw .outOfFuel
  | fuel + 1, chain => do
    if ← skipPunctuator "," then
      let declarator ← S.declarator
      let chain ← linkSiblings chain declarator
      skipAsmLabel
      let chain ← parseAttributeLists S fuel chain
      skipAsmLabel
      parseMoreDeclarators S fuel chain
    else return chain

/-- A declaration or a function definition, behind `__extension__`. -/
def parseFileDeclaration (S : Grammar) (fuel : ℕ) : ParserM ℕ := do
  let isTypedef := (← get).currentToken.text == "typedef"
  let specifiers ← S.declarationSpecifiers
  let last ← chainEnd specifiers
  let chain ←
    if (← get).isDeclaratorStart then
      parseFirstDeclarator S isTypedef specifiers fuel (specifiers, last)
    else pure (specifiers, last)
  let chain ← parseMoreDeclarators S fuel chain
  if ← skipPunctuator ";" then allocNode 20 0 0 chain.1 0
  else if ← skipPunctuator "\x7b" then
    let body ← parseCompoundStatement S
    let chain ← linkSiblings chain body
    allocNode 23 0 0 chain.1 0
  else allocNode 20 0 0 chain.1 0

end File

end Grammar

end OpticC

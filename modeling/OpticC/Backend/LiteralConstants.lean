import OpticC.Frontend.Literals

/-! Literals on their way from the parser's tokens to the constants of the backend. -/

namespace OpticC

/-- The `i8` constant. -/
def lowerCharConst (node : CAstNode) : BitVec 8 := BitVec.ofNat 8 node.data

/-- The bytes of the global, which `const_string` ends with a zero. -/
def lowerStringConst (arena : Arena) (node : CAstNode) : List UInt8 :=
  textBytes ((arena.getString node.data).getD "") ++ [0]

/-- A sequence of adjacent string literals, or a character constant. -/
inductive Literal where
  | string (first : Segment) (more : List Segment)
  | character (k : CharacterConstant)

namespace Literal

def tokens : Literal → List (TokenKind × String)
  | string first more => (first :: more).map fun s => (.stringLiteral, String.ofList s.text)
  | character k => [(.charConstant, String.ofList k.text)]

/-- The parser stands at the literal, and no further string literal follows it. -/
def Ahead (l : Literal) (p : Parser) : Prop :=
  ∃ ts rest, p.tokens.drop p.current = ts ++ rest ∧ ts.map (fun t => (t.kind, t.text)) = l.tokens ∧
    ∀ t ∈ rest.head?, t.kind ≠ .stringLiteral

/-- What C says of the constant made from the node: the bytes of all literals and a zero, in every
later arena, or the value of the character. -/
def Means (arena : Arena) (node : CAstNode) : Literal → Prop
  | string first more => node.kind = 63 ∧ ∀ later, arena.Extends later →
      lowerStringConst later node = (first :: more).flatMap Segment.bytes ++ [0]
  | character k => node.kind = 62 ∧ ∀ v ∈ k.value, (lowerCharConst node).toNat = v

/-- The parser takes the tokens of the literal and makes a node with C's meaning. -/
def Decodes (l : Literal) (G : Productions) (p : Parser) : Prop :=
  ∀ fuel, l.tokens.length ≤ fuel → ∃ node p' record,
    parsePrimaryExpression G (fuel + 1) p = .ok node p' ∧
      p'.current = p.current + l.tokens.length ∧ p'.arena.get node = some record ∧
        l.Means p'.arena record

end Literal

section Parsing

variable {G : Productions} {fuel : ℕ} {p : Parser}

theorem head_of_drop {t : Token} {rest : List Token} (h : p.tokens.drop p.current = t :: rest) :
    p.tokens[p.current]? = some t ∧ p.current < p.tokens.length ∧
      p.tokens.drop (p.current + 1) = rest := by
  have hlt : p.current < p.tokens.length := by
    apply Nat.lt_of_not_le
    intro hle
    rw [List.drop_eq_nil_of_le hle] at h
    cases h
  refine ⟨?_, hlt, ?_⟩
  · rw [← List.head?_drop, h]
    rfl
  · rw [← List.tail_drop, h]
    rfl

/-- The loop takes exactly the adjacent literals. -/
theorem parseAdjacentLiterals_run {ts rest : List Token} {acc : List Char}
    (h : p.tokens.drop p.current = ts ++ rest) (hts : ∀ t ∈ ts, t.kind = .stringLiteral)
    (hrest : ∀ t ∈ rest.head?, t.kind ≠ .stringLiteral) (hfuel : ts.length < fuel) :
    parseAdjacentLiterals fuel acc p =
      .ok (acc ++ ts.flatMap fun t => nextLiteral t.text)
        { p with current := p.current + ts.length } := by
  induction ts generalizing fuel acc p with
  | nil =>
    obtain ⟨fuel, rfl⟩ : ∃ n, fuel = n + 1 := ⟨fuel - 1, by simp at hfuel; omega⟩
    rw [parseAdjacentLiterals, get_bind, List.flatMap_nil, List.append_nil]
    have hhead : p.tokens[p.current]? = rest.head? := by
      rw [← List.head?_drop, h]
      rfl
    rw [hhead]
    cases hcase : rest.head? with
    | none => rfl
    | some t =>
      show (if t.kind = .stringLiteral then _ else _ : ParserM (List Char)) p = _
      rw [if_neg (hrest t hcase)]
      rfl
  | cons t ts ih =>
    obtain ⟨fuel, rfl⟩ : ∃ n, fuel = n + 1 := ⟨fuel - 1, by simp at hfuel; omega⟩
    obtain ⟨hhead, hlt, hdrop⟩ := head_of_drop h
    rw [parseAdjacentLiterals, get_bind, hhead]
    show (if t.kind = .stringLiteral then _ else _ : ParserM (List Char)) p = _
    rw [if_pos (hts t List.mem_cons_self), bind_ok (advance_eq hlt),
      ih (p := { p with current := p.current + 1 }) hdrop
        (fun u hu => hts u (List.mem_cons_of_mem t hu))
        (Nat.lt_of_succ_lt_succ hfuel), List.flatMap_cons, List.append_assoc, List.length_cons,
      Nat.add_assoc, Nat.add_comm 1]

theorem parsePrimary_stringLiteral (h : p.currentToken.kind = .stringLiteral) :
    parsePrimaryExpression G (fuel + 1) p = (do
      advance
      let chars ← parseAdjacentLiterals fuel (firstLiteral p.currentToken.text)
      let text ← storeString (String.ofList chars)
      allocNode 63 text 0 0 0 : ParserM ℕ) p := by
  obtain ⟨hpunct, hword⟩ := IntConstant.not_punct_of_constant (t := p.currentToken) (by simp [h])
  rw [parsePrimaryExpression]
  simp only [get_bind, hpunct, hword, Bool.false_and, Bool.false_eq_true, if_false, h]

theorem parsePrimary_charConstant (h : p.currentToken.kind = .charConstant) :
    parsePrimaryExpression G (fuel + 1) p =
      (do advance; allocNode 62 (charConstantValue p.currentToken.text) 0 0 0 : ParserM ℕ) p := by
  obtain ⟨hpunct, hword⟩ := IntConstant.not_punct_of_constant (t := p.currentToken) (by simp [h])
  rw [parsePrimaryExpression]
  simp only [get_bind, hpunct, hword, Bool.false_and, Bool.false_eq_true, if_false, h]

end Parsing

section Segments

theorem textBytes_length (s : String) : (textBytes s).length = s.utf8ByteSize := by
  simp [textBytes]

theorem utf8ByteSize_ofList (cs : List Char) :
    (String.ofList cs).utf8ByteSize = (encoded cs).length := by
  rw [← textBytes_length, textBytes_ofList_eq]

namespace Segment

variable (s : Segment)

theorem quoted_text : quoted (String.ofList s.text) = true := by
  have hsize := encoded_length_ge s.text
  have hlength : s.text.length = (s.elements.flatMap Element.spelling).length + 1 + 1 := by
    rw [text, List.length_cons, List.length_append, List.length_singleton]
  rw [quoted, Bool.and_eq_true, Bool.and_eq_true, decide_eq_true_iff, beq_iff_eq, beq_iff_eq,
    utf8ByteSize_ofList, String.toList_ofList]
  refine ⟨⟨by omega, rfl⟩, ?_⟩
  rw [text, ← List.cons_append, List.getLast?_concat]

theorem inner_text : ((String.ofList s.text).toList.drop 1).dropLast =
    s.elements.flatMap Element.spelling := by
  rw [String.toList_ofList, text, List.drop_succ_cons, List.drop_zero, List.dropLast_concat]

theorem firstLiteral_text : firstLiteral (String.ofList s.text) = s.decoded firstEscapes := by
  rw [firstLiteral, if_pos s.quoted_text, inner_text]
  exact unescape_flatMap firstEscapes_table fun _ h => s.ne_backslash h

theorem nextLiteral_text : nextLiteral (String.ofList s.text) = s.decoded commonEscapes := by
  rw [nextLiteral, if_pos s.quoted_text, inner_text]
  exact unescape_flatMap commonEscapes_table fun _ h => s.ne_backslash h

theorem decoded_eq_nil {escapes : Char → Option Char} (h : s.bytes = []) :
    s.decoded escapes = [] := by
  have helements : s.elements = [] := by
    apply List.eq_nil_iff_forall_not_mem.2
    intro x hx
    have hnil : x.bytes = [] := List.flatMap_eq_nil_iff.1 h x hx
    cases x with
    | plain c =>
      have hpos := Char.utf8Size_pos c
      have hencode : String.utf8EncodeChar c = [] := hnil
      rw [← String.length_utf8EncodeChar, hencode] at hpos
      exact absurd hpos (Nat.lt_irrefl 0)
    | escape e => cases hnil
  rw [decoded, helements]
  rfl

end Segment

/-- The text that the parser stores for adjacent literals. -/
def decodedText (first : Segment) (more : List Segment) : List Char :=
  first.decoded firstEscapes ++ more.flatMap (Segment.decoded commonEscapes)

/-- The stored text has C's bytes where every escape is known to the loop that reads it. -/
theorem encoded_decodedText_iff (first : Segment) (more : List Segment) :
    encoded (decodedText first more) = (first :: more).flatMap Segment.bytes ↔
      (∀ x ∈ first.elements, x.Supported ['?']) ∧
        ∀ s ∈ more, ∀ x ∈ s.elements, x.Supported ['?', 'a', 'b', 'f', 'v'] := by
  have hmore : encoded (more.flatMap (Segment.decoded commonEscapes)) =
      more.flatMap fun s => encoded (s.decoded commonEscapes) := List.flatMap_assoc
  have hle : ∀ s ∈ more, s.bytes.length ≤ (encoded (s.decoded commonEscapes)).length :=
    fun s _ => s.bytes_length_le
  rw [decodedText, encoded_append, List.flatMap_cons, hmore,
    append_eq_append_iff_of_length_le first.bytes_length_le (flatMap_length_le hle),
    flatMap_eq_flatMap_iff hle, first.encoded_decoded_iff firstEscapes_table]
  exact and_congr_right' (forall₂_congr fun s _ => s.encoded_decoded_iff commonEscapes_table)

end Segments

section Storing

/-- The string store of the parser, on the arena alone. -/
def stored (a : Arena) (s : String) : ℕ × Arena := (a.storeString s).getD (0, a)

def allocated (a : Arena) (node : CAstNode) : ℕ × Arena := (a.alloc node).getD (0, a)

theorem storeString_run (s : String) (p : Parser) :
    storeString s p = .ok (stored p.arena s).1 { p with arena := (stored p.arena s).2 } := by
  simp only [storeString, stored, modifyGet_run]
  cases p.arena.storeString s with
  | none => rfl
  | some r => rfl

theorem allocNode_run (kind data : ℕ) (p : Parser) :
    allocNode kind data 0 0 0 p =
      .ok (allocated p.arena ⟨kind, true, 0, 0, 0, data⟩).1
        { p with arena := (allocated p.arena ⟨kind, true, 0, 0, 0, data⟩).2 } := by
  simp only [allocNode, allocated, modifyGet_run]
  cases p.arena.alloc ⟨kind, true, 0, 0, 0, data⟩ with
  | none => rfl
  | some r => rfl

variable {a : Arena}

/-- A node that was given a slot is read back; a full arena gives none. -/
theorem get_allocated (node : CAstNode) :
    (allocated a node).2.get (allocated a node).1 =
      if a.nodeAllocated < a.nodeCapacity then some node else none := by
  unfold allocated
  by_cases hfull : a.nodeAllocated ≥ a.nodeCapacity
  · rw [if_neg (Nat.not_lt.2 hfull), Arena.alloc, if_pos hfull]
    exact if_pos (.inl rfl)
  · have halloc : a.alloc node = some _ := if_neg hfull
    rw [if_pos (Nat.lt_of_not_le hfull)]
    have hget := Arena.get_alloc halloc
    rw [halloc]
    exact hget

theorem extends_allocated (node : CAstNode) : a.Extends (allocated a node).2 := by
  unfold allocated
  cases h : a.alloc node with
  | none => exact Arena.Extends.refl a
  | some r => exact Arena.extends_alloc h

/-- The string region has slots for the text. -/
def HasSlots (a : Arena) (cs : List Char) : Prop :=
  cs = [] ∨ a.stringAllocated + Arena.slotsNeeded (encoded cs).length ≤ a.stringCapacity

theorem encoded_eq_nil {cs : List Char} : encoded cs = [] ↔ cs = [] := by
  constructor
  · intro h
    have hle := encoded_length_ge cs
    rw [h] at hle
    exact List.eq_nil_of_length_eq_zero (Nat.le_zero.1 hle)
  · rintro rfl
    rfl

/-- A stored text is read back in every later arena. -/
theorem getString_stored {cs : List Char} (hshort : (encoded cs).length + 60 ≤ 2 ^ 32)
    (hslots : HasSlots a cs) {later : Arena}
    (hlater : (stored a (String.ofList cs)).2.Extends later) :
    later.getString (stored a (String.ofList cs)).1 = some (String.ofList cs) := by
  by_cases hnil : cs = []
  · subst hnil
    rfl
  · have hsize : (String.ofList cs).utf8ByteSize ≠ 0 := by
      rw [utf8ByteSize_ofList]
      exact fun h => hnil (encoded_eq_nil.1 (List.eq_nil_of_length_eq_zero h))
    have hfit : ¬a.stringAllocated + Arena.slotsNeeded (String.ofList cs).utf8ByteSize >
        a.stringCapacity := by
      rw [utf8ByteSize_ofList]
      exact Nat.not_lt.2 (hslots.resolve_left hnil)
    have hstore : a.storeString (String.ofList cs) = some _ := (if_neg hsize).trans (dif_neg hfit)
    have hholds := Arena.holds_storeString hsize (by rw [utf8ByteSize_ofList]; exact hshort) hstore
    unfold stored at hlater ⊢
    rw [hstore] at hlater ⊢
    exact Arena.getString_of_holds (hlater.strings _ _ hholds)

/-- A text without room is lost. -/
theorem stored_of_not_hasSlots {cs : List Char} (hslots : ¬HasSlots a cs) :
    stored a (String.ofList cs) = (0, a) := by
  have hnil : cs ≠ [] := fun h => hslots (.inl h)
  have hsize : (String.ofList cs).utf8ByteSize ≠ 0 := by
    rw [utf8ByteSize_ofList]
    exact fun h => hnil (encoded_eq_nil.1 (List.eq_nil_of_length_eq_zero h))
  have hfit : a.stringAllocated + Arena.slotsNeeded (String.ofList cs).utf8ByteSize >
      a.stringCapacity := by
    rw [utf8ByteSize_ofList]
    exact Nat.lt_of_not_le fun h => hslots (.inr h)
  unfold stored
  rw [Arena.storeString, if_neg hsize, dif_pos hfit]
  rfl

/-- A store takes no node. -/
theorem stored_nodes (s : String) :
    (stored a s).2.nodeAllocated = a.nodeAllocated ∧
      (stored a s).2.nodeCapacity = a.nodeCapacity := by
  unfold stored Arena.storeString
  split_ifs
  · exact ⟨rfl, rfl⟩
  · exact ⟨rfl, rfl⟩
  · exact ⟨rfl, rfl⟩

end Storing

namespace Literal

/-- Each escape is one that the parser's table for its place knows. -/
def Supported : Literal → Prop
  | string first more => (∀ x ∈ first.elements, x.Supported ['?']) ∧
      ∀ s ∈ more, ∀ x ∈ s.elements, x.Supported ['?', 'a', 'b', 'f', 'v']
  | character k => k.Supported

/-- The arena has a slot for the node, and slots for the text. -/
def HasRoom (a : Arena) : Literal → Prop
  | string first more => a.nodeAllocated < a.nodeCapacity ∧ HasSlots a (decodedText first more)
  | character _ => a.nodeAllocated < a.nodeCapacity

/-- The stored text is shorter than 4 GiB. -/
def Short : Literal → Prop
  | string first more => (encoded (decodedText first more)).length + 60 ≤ 2 ^ 32
  | character _ => True

section Runs

variable {G : Productions} {fuel : ℕ} {p : Parser}

/-- The node for adjacent literals, and the arena behind it. -/
def stringNode (a : Arena) (first : Segment) (more : List Segment) : ℕ × Arena :=
  let text := stored a (String.ofList (decodedText first more))
  allocated text.2 ⟨63, true, 0, 0, 0, text.1⟩

theorem parse_string {first : Segment} {more : List Segment} (hp : (string first more).Ahead p)
    (hfuel : more.length + 1 ≤ fuel) :
    parsePrimaryExpression G (fuel + 1) p =
      .ok (stringNode p.arena first more).1
        { p with
          current := p.current + (more.length + 1)
          arena := (stringNode p.arena first more).2 } := by
  obtain ⟨ts, rest, hdrop, htokens, hrest⟩ := hp
  match ts, htokens with
  | t :: ts, htokens =>
    obtain ⟨hhead, htail⟩ := List.cons.inj htokens
    obtain ⟨hkind, htext⟩ := Prod.mk.inj hhead
    obtain ⟨hcurrent, hlt, hdrop'⟩ := head_of_drop hdrop
    have htoken : p.currentToken = t := by
      rw [Parser.currentToken, hcurrent]
      rfl
    have hkinds : ∀ u ∈ ts, u.kind = .stringLiteral := by
      intro u hu
      have hmem : (u.kind, u.text) ∈ ts.map fun t => (t.kind, t.text) := List.mem_map.2 ⟨u, hu, rfl⟩
      rw [htail] at hmem
      obtain ⟨s, -, hs⟩ := List.mem_map.1 hmem
      exact (Prod.mk.inj hs).1.symm
    have hlength : ts.length = more.length := by
      have hmap := congrArg List.length htail
      simpa using hmap
    have htexts : (ts.flatMap fun t => nextLiteral t.text) =
        more.flatMap (Segment.decoded commonEscapes) :=
      calc (ts.flatMap fun t => nextLiteral t.text)
          = (ts.map fun t => (t.kind, t.text)).flatMap fun r => nextLiteral r.2 :=
            (List.flatMap_map (fun t : Token => (t.kind, t.text))
              (fun r : TokenKind × String => nextLiteral r.2) ts).symm
        _ = more.flatMap fun s => nextLiteral (String.ofList s.text) := by
            rw [htail, List.flatMap_map]
        _ = more.flatMap (Segment.decoded commonEscapes) :=
            List.flatMap_congr fun s _ => s.nextLiteral_text
    have hstring : p.currentToken.kind = .stringLiteral := htoken ▸ hkind
    rw [parsePrimary_stringLiteral hstring, bind_ok (advance_eq hlt), htoken, htext,
      first.firstLiteral_text,
      bind_ok (parseAdjacentLiterals_run (p := { p with current := p.current + 1 }) hdrop' hkinds
        hrest (by omega)),
      htexts, bind_ok (storeString_run _ _), allocNode_run, hlength]
    show EStateM.Result.ok _ { p with current := p.current + 1 + more.length, arena := _ } = _
    rw [Nat.add_assoc, Nat.add_comm 1]
    rfl

theorem parse_character {k : CharacterConstant} (hp : (character k).Ahead p) :
    parsePrimaryExpression G (fuel + 1) p =
      .ok (allocated p.arena ⟨62, true, 0, 0, 0, charConstantValue (String.ofList k.text)⟩).1
        { p with
          current := p.current + 1
          arena :=
            (allocated p.arena ⟨62, true, 0, 0, 0, charConstantValue (String.ofList k.text)⟩).2 } := by
  obtain ⟨ts, rest, hdrop, htokens, -⟩ := hp
  match ts, htokens with
  | t :: ts, htokens =>
    obtain ⟨hhead, -⟩ := List.cons.inj htokens
    obtain ⟨hkind, htext⟩ := Prod.mk.inj hhead
    obtain ⟨hcurrent, hlt, -⟩ := head_of_drop hdrop
    have htoken : p.currentToken = t := by
      rw [Parser.currentToken, hcurrent]
      rfl
    have hchar : p.currentToken.kind = .charConstant := htoken ▸ hkind
    rw [parsePrimary_charConstant hchar, bind_ok (advance_eq hlt), htoken, htext, allocNode_run]

/-- The node of adjacent literals and what is read of it. -/
theorem get_stringNode (a : Arena) (first : Segment) (more : List Segment) :
    (stringNode a first more).2.get (stringNode a first more).1 =
      if a.nodeAllocated < a.nodeCapacity then
        some ⟨63, true, 0, 0, 0, (stored a (String.ofList (decodedText first more))).1⟩
      else none := by
  obtain ⟨hallocated, hcapacity⟩ := stored_nodes (a := a) (String.ofList (decodedText first more))
  rw [stringNode, get_allocated, hallocated, hcapacity]

theorem lowerStringConst_of_hasSlots {a : Arena} {first : Segment} {more : List Segment}
    (hshort : (string first more).Short) (hslots : HasSlots a (decodedText first more))
    {later : Arena} (hlater : (stringNode a first more).2.Extends later) :
    lowerStringConst later
        ⟨63, true, 0, 0, 0, (stored a (String.ofList (decodedText first more))).1⟩ =
      encoded (decodedText first more) ++ [0] := by
  have hget := getString_stored hshort hslots ((extends_allocated _).trans hlater)
  rw [lowerStringConst, hget, Option.getD_some, textBytes_ofList_eq]

/-- A text that C makes of no byte is empty, and needs no room. -/
theorem decodedText_eq_nil {first : Segment} {more : List Segment}
    (h : (first :: more).flatMap Segment.bytes = []) : decodedText first more = [] := by
  rw [List.flatMap_eq_nil_iff, List.forall_mem_cons] at h
  rw [decodedText, first.decoded_eq_nil h.1, List.nil_append, List.flatMap_eq_nil_iff]
  exact fun s hs => s.decoded_eq_nil (h.2 s hs)

end Runs

/-- `"a\n"` -/
def lineSegment : Segment :=
  ⟨[.plain 'a', .escape (.simple 'n' (by decide))], by simp, by simp [Element.TakesUp]⟩

/-- `"\x41"` -/
def hexSegment : Segment :=
  ⟨[.escape (.hexadecimal ['4', '1'] (List.cons_ne_nil _ _) (by simp [IsDigit, digitOf])
    (by decide))], by simp, by simp⟩

/-- The parser at a literal that nothing follows. -/
def parserAtLiteral (l : Literal) : Parser :=
  parserAt (l.tokens.map fun t => ⟨t.1, t.2, 1, 1, "a.c"⟩)

theorem ahead_parserAtLiteral (l : Literal) : l.Ahead (parserAtLiteral l) := by
  refine ⟨_, [], (List.append_nil _).symm, ?_, by simp⟩
  show (l.tokens.map fun t => (⟨t.1, t.2, 1, 1, "a.c"⟩ : Token)).map (fun t => (t.kind, t.text)) = _
  rw [List.map_map]
  exact List.map_id _

end Literal

end OpticC

import Mathlib.Algebra.Order.BigOperators.Group.List
import Mathlib.Algebra.Order.Group.Nat
import Mathlib.Data.Nat.Cast.Basic
import OpticC.Vfs.Contents

/-! Files read in parts. With diagnostics every part gets an end of line of its own, where the
whole file gets one at most, and the size that `getattr` reports is that of the bytes without
them. -/

namespace OpticC.Vfs

open LossyText

/-- Any consecutive reads of the whole file give what `read_file` gives out for its content, as
many bytes as `getattr` reports. -/
def ReadsAgree (v : Vfs) (analysis : AliasAnalyzer) (ino : ℕ) (content : List UInt8) : Prop :=
  ∀ sizes : List ℕ, (∀ n ∈ sizes, 0 < n ∧ n < 2 ^ 32) → sizes.sum = content.length →
    v.readChunks analysis ino 0 sizes = .ok (served analysis content) ∧
      (v.getattr ino).map FileAttr.size = .ok (served analysis content).length

section Pieces

variable {α : Type*}

/-- A list in pieces of these lengths. -/
def pieces : List ℕ → List α → List (List α)
  | [], _ => []
  | n :: ns, xs => xs.take n :: pieces ns (xs.drop n)

theorem flatten_pieces {ns : List ℕ} {xs : List α} (h : ns.sum = xs.length) :
    (pieces ns xs).flatten = xs := by
  induction ns generalizing xs with
  | nil => exact (List.eq_nil_of_length_eq_zero h.symm).symm
  | cons n ns ih =>
    rw [List.sum_cons] at h
    rw [pieces, List.flatten_cons, ih (by rw [List.length_drop]; omega), List.take_append_drop]

theorem subset_of_mem_pieces {ns : List ℕ} {xs piece : List α} (h : piece ∈ pieces ns xs) :
    ∀ x ∈ piece, x ∈ xs := by
  induction ns generalizing xs with
  | nil => cases h
  | cons n ns ih =>
    intro x hx
    rcases List.mem_cons.1 h with rfl | h
    · exact List.mem_of_mem_take hx
    · exact List.mem_of_mem_drop (ih h x hx)

theorem pieces_ones (xs : List α) : pieces (List.replicate xs.length 1) xs = xs.map fun x => [x] := by
  induction xs with
  | nil => rfl
  | cons x xs ih => exact congrArg ([x] :: ·) ih

end Pieces

section Reads

variable {v : Vfs} {analysis : AliasAnalyzer} {ino : ℕ} {node : VfsNode} {content : List UInt8}

theorem readChunks_eq (hnode : v.fileNodes ino = some node) (hcontent : node.content = some content)
    {sizes : List ℕ} (hpos : ∀ n ∈ sizes, 0 < n) {offset : ℕ} (hsum : offset + sizes.sum = content.length) :
    v.readChunks analysis ino offset sizes =
      .ok ((pieces sizes (content.drop offset)).flatMap (served analysis)) := by
  induction sizes generalizing offset with
  | nil => rfl
  | cons n sizes ih =>
    rw [List.sum_cons] at hsum
    have hn := hpos n List.mem_cons_self
    have hread : v.read analysis ino offset n = .ok (served analysis ((content.drop offset).take n)) := by
      simp only [Vfs.read, hnode, hcontent]
      rw [if_neg (by omega), Nat.min_eq_left (by omega), List.drop_take, Nat.add_sub_cancel_left]
    rw [readChunks, hread, ih (fun m hm => hpos m (List.mem_cons_of_mem _ hm)) (by omega), pieces,
      List.flatMap_cons, List.drop_drop]
    rfl

theorem getattr_size (hnode : v.fileNodes ino = some node) (hcontent : node.content = some content) :
    (v.getattr ino).map FileAttr.size = .ok content.length := by
  simp only [getattr, hnode, hcontent]
  rfl

/-- Where no piece is changed, the pieces make up the file. -/
theorem readsAgree_of_served (hnode : v.fileNodes ino = some node) (hcontent : node.content = some content)
    (hserved : ∀ piece : List UInt8, (∀ b ∈ piece, b ∈ content) → served analysis piece = piece) :
    v.ReadsAgree analysis ino content := by
  intro sizes hsizes hsum
  rw [readChunks_eq hnode hcontent (fun n hn => (hsizes n hn).1) (by rw [Nat.zero_add, hsum]),
    getattr_size hnode hcontent, hserved content fun _ hb => hb]
  refine ⟨congrArg Except.ok ?_, rfl⟩
  rw [List.drop_zero]
  have hpieces : (pieces sizes content).flatMap (served analysis) = (pieces sizes content).flatten := by
    rw [List.flatMap_def]
    refine congrArg List.flatten (List.map_congr_left (g := id) fun piece hp => ?_) |>.trans (by rw [List.map_id])
    exact hserved piece (subset_of_mem_pieces hp)
  rw [hpieces, flatten_pieces hsum]

end Reads

section Comments

variable {analysis : AliasAnalyzer}

theorem injectLine_eq (analysis : AliasAnalyzer) (line : List UInt8) :
    injectLine analysis line = line ++ [newline] := rfl

theorem injectErrorComments_newlines (analysis : AliasAnalyzer) (k : ℕ) :
    injectErrorComments analysis (List.replicate k newline) = List.replicate k newline := by
  have hascii : ∀ b ∈ List.replicate k newline, b < 0x80 := by
    intro b hb
    rw [List.eq_of_mem_replicate hb]
    decide
  rw [injectErrorComments, fromUtf8Lossy_ascii hascii, lines_newlines]
  induction k with
  | zero => rfl
  | succ k ih =>
    rw [List.replicate_succ, List.flatMap_cons, ih fun b hb => hascii b (List.mem_cons_of_mem _ hb)]
    rfl

/-- A byte that is no newline gets one behind it. -/
theorem one_lt_length_inject (analysis : AliasAnalyzer) {b : UInt8} (hb : b ≠ newline) :
    1 < (injectErrorComments analysis [b]).length := by
  have hline {text : List UInt8} (hnone : newline ∉ text) (hne : text ≠ []) :
      1 < ((lines text).flatMap (injectLine analysis)).length := by
    rw [lines_of_not_mem hnone hne, List.flatMap_singleton, injectLine_eq, List.length_append]
    exact Nat.lt_add_of_pos_left (List.length_pos_of_ne_nil hne)
  rw [injectErrorComments, fromUtf8Lossy_singleton]
  split_ifs
  · exact hline (fun h => hb (List.mem_singleton.1 h).symm) (List.cons_ne_nil _ _)
  · exact hline (by decide) (by decide)

theorem length_inject_newline (analysis : AliasAnalyzer) :
    (injectErrorComments analysis [newline]).length = 1 := by
  rw [show [newline] = List.replicate 1 newline from rfl, injectErrorComments_newlines]
  rfl

theorem one_le_length_inject (analysis : AliasAnalyzer) (b : UInt8) :
    1 ≤ (injectErrorComments analysis [b]).length := by
  by_cases hb : b = newline
  · exact Nat.le_of_eq (by rw [hb, length_inject_newline])
  · exact Nat.le_of_lt (one_lt_length_inject analysis hb)

/-- Byte by byte a file grows, unless it is made of newlines. -/
theorem length_lt_bytewise {content : List UInt8} (h : ∃ b ∈ content, b ≠ newline) :
    content.length < (content.flatMap fun b => injectErrorComments analysis [b]).length := by
  obtain ⟨b, hb, hne⟩ := h
  rw [List.length_flatMap, show content.length = (content.map fun _ => 1).sum by simp]
  exact List.sum_lt_sum _ _ (fun b _ => one_le_length_inject analysis b)
    ⟨b, hb, one_lt_length_inject analysis hne⟩

end Comments

section Agreement

/-- Parts agree with the whole without diagnostics, and for files of newlines. -/
theorem readsAgree_iff (v : Vfs) (analysis : AliasAnalyzer) (ino : ℕ) (node : VfsNode)
    (content : List UInt8) (hnode : v.fileNodes ino = some node) (hcontent : node.content = some content) :
    v.ReadsAgree analysis ino content ↔
      analysis.hasVulnerabilities = false ∨ ∀ b ∈ content, b = newline := by
  constructor
  · intro hagree
    cases hvulnerable : analysis.hasVulnerabilities with
    | false => exact .inl rfl
    | true =>
      refine .inr ?_
      by_contra hother
      have hother : ∃ b ∈ content, b ≠ newline := by simpa using hother
      have hsum : (List.replicate content.length 1).sum = content.length := by simp
      obtain ⟨hread, hsize⟩ := hagree (List.replicate content.length 1)
        (fun n hn => by rw [List.eq_of_mem_replicate hn]; decide) hsum
      rw [readChunks_eq hnode hcontent (fun n hn => by rw [List.eq_of_mem_replicate hn]; decide)
        (by rw [Nat.zero_add, hsum]), List.drop_zero, pieces_ones, List.flatMap_map] at hread
      rw [getattr_size hnode hcontent] at hsize
      have hgrows : content.length < (content.flatMap fun b => injectErrorComments analysis [b]).length :=
        length_lt_bytewise hother
      have hsame : (content.flatMap fun b => injectErrorComments analysis [b]) = served analysis content := by
        simpa [served, hvulnerable] using hread
      rw [hsame, ← Except.ok.inj hsize] at hgrows
      exact absurd hgrows (Nat.lt_irrefl _)
  · rintro (hnone | hnewlines)
    · exact readsAgree_of_served hnode hcontent fun piece _ => by simp [served, hnone]
    · refine readsAgree_of_served hnode hcontent fun piece hpiece => ?_
      unfold served
      split_ifs
      · rw [List.eq_replicate_of_mem fun b hb => hnewlines b (hpiece b hb), injectErrorComments_newlines]
      · rfl

/-- A file system with one file, under the inode 2. -/
def oneFile (content : List UInt8) : Vfs := (Vfs.new.addFile FUSE_ROOT_ID "a.c" content).2

def warned : AliasAnalyzer := ⟨[⟨.warning, 1, "Memory marked as freed", []⟩]⟩

theorem readsAgree_noDiagnostics : (oneFile [120, 121]).ReadsAgree ⟨[]⟩ 2 [120, 121] :=
  (readsAgree_iff _ _ _ ⟨"a.c", 2, .regularFile, some [120, 121], [], 1⟩ _ rfl rfl).2 (.inl rfl)

/-- The file `xy` in two reads. -/
theorem not_readsAgree_warned : ¬ (oneFile [120, 121]).ReadsAgree warned 2 [120, 121] := by
  intro h
  have hread := (h [1, 1] (by decide) rfl).1
  exact absurd hread (by decide)

end Agreement

end OpticC.Vfs

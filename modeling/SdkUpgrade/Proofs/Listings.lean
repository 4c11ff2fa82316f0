import SdkUpgrade.Proofs.Endings

/-!
# The listing of edits is unambiguous

The edits of a run are listed line by line. Whatever the texts of the edits hold, the listing has
one line for their number and one for each of them, also for a reader that takes every character
which can end a line for the end of one: `Listing.lines_edits`. Different edits are listed
differently: `Listing.edit_inj` takes the line of an edit apart from its beginning, at the marks
that end the identifier and the offsets, and then at the two quoted texts, which show where they
end themselves. `Listing.edits_unambiguous` puts the two together.
-/

namespace SdkUpgrade

namespace Text

/-! ## Lines -/

/-- The characters that end a line. -/
def lineBreaks : Text :=
  ['\n', '\x0b', '\x0c', '\r', '\x1c', '\x1d', '\x1e', '\x85', '\u2028', '\u2029']

/-- The lines of a text, without what ends them. A carriage return with a line feed behind it ends
one line, and nothing is left behind the end of the last one. -/
def lines : Text → List Text
  | [] => []
  | '\r' :: '\n' :: text => [] :: lines text
  | c :: text =>
      if c ∈ lineBreaks then [] :: lines text
      else
        match lines text with
        | [] => [[c]]
        | line :: more => (c :: line) :: more

theorem lines_newline (rest : Text) : lines ('\n' :: rest) = [] :: lines rest := by
  rw [lines]
  · rw [if_pos (by decide)]
  · simp

/-- A line feed ends the line in front of it. -/
theorem lines_append_newline {line : Text} (h : ∀ c ∈ line, c ∉ lineBreaks) (rest : Text) :
    lines (line ++ '\n' :: rest) = line :: lines rest := by
  induction line with
  | nil => exact lines_newline rest
  | cons c line ih =>
      obtain ⟨hc, hline⟩ := List.forall_mem_cons.1 h
      rw [List.cons_append, lines, if_neg hc, ih hline]
      -- The character is no carriage return, so that the rule for two characters does not apply.
      rintro text rfl -
      exact hc (by decide)

/-- Nothing that ends a line is printable. -/
theorem notMem_lineBreaks {c : Char} (h : isPrintable c = true) : c ∉ lineBreaks := by
  have hbreaks : lineBreaks.all (fun c => !isPrintable c) = true := by decide +kernel
  intro hmem
  have hnot := List.all_eq_true.1 hbreaks c hmem
  rw [h] at hnot
  exact absurd hnot (by decide)

/-! ## Texts in front of a mark -/

/-- The first occurrence of a mark divides a text in one way only. -/
theorem append_cons_inj {mark : Char} {first second rest behind : Text} (hfirst : mark ∉ first)
    (hsecond : mark ∉ second) (h : first ++ mark :: rest = second ++ mark :: behind) :
    first = second ∧ rest = behind := by
  have hpieces := congrArg (split mark) h
  rw [split_append_cons, split_append_cons, split_eq_singleton hfirst, split_eq_singleton hsecond]
    at hpieces
  obtain ⟨hhead, htail⟩ := List.cons.inj hpieces
  refine ⟨hhead, ?_⟩
  rw [← join_split mark rest, ← join_split mark behind]
  exact congrArg _ htail

/-- Different numbers have different digits. -/
theorem ofNat_inj {m n : Nat} (h : ofNat m = ofNat n) : m = n := by
  have hread : ∀ k, Nat.ofDigitChars 10 (ofNat k) 0 = k := fun _ => Nat.ofDigitChars_ten_toDigits
  rw [← hread m, h, hread]

end Text

namespace Listing

open Text

/-! ## The lines of the listing -/

/-- Printable texts are the lines that they are printed on. -/
theorem lines_flatMap_line {texts : List Text}
    (h : ∀ text ∈ texts, ∀ c ∈ text, isPrintable c = true) :
    lines (texts.flatMap line) = texts := by
  induction texts with
  | nil => rfl
  | cons text texts ih =>
      obtain ⟨htext, htexts⟩ := List.forall_mem_cons.1 h
      rw [List.flatMap_cons, line_of_isPrintable htext, List.append_assoc, List.singleton_append,
        lines_append_newline (fun c hc => notMem_lineBreaks (htext c hc)), ih htexts]

/-- The listing has a heading and one line for each edit, whatever the texts of the edits hold. -/
theorem lines_edits {result : Result}
    (h : ∀ e ∈ result.edits, ∀ c ∈ e.ruleId, isPrintable c = true) :
    lines (edits result) = heading result :: result.edits.map edit := by
  have hform : edits result = (heading result :: result.edits.map edit).flatMap line := by
    rw [List.flatMap_cons, List.flatMap_map]
    rfl
  rw [hform]
  refine lines_flatMap_line (List.forall_mem_cons.2 ⟨isPrintable_heading result, ?_⟩)
  intro text htext
  obtain ⟨e, he, rfl⟩ := List.mem_map.1 htext
  exact isPrintable_edit (h e he)

/-! ## The line of an edit -/

theorem edit_eq (e : Edit) : edit e = "  [" ++ (e.ruleId ++ ']' :: ' ' :: (Text.ofNat e.start ++
    '-' :: (Text.ofNat e.stop ++ ':' :: ' ' :: (quoted e.before ++
      (" -> " ++ quoted e.after))))) := by
  unfold edit
  simp only [List.append_assoc]
  rfl

/-- An edit can be told from its line if the bracket behind its identifier can be found. -/
theorem edit_inj {e f : Edit} (he : ']' ∉ e.ruleId) (hf : ']' ∉ f.ruleId) (h : edit e = edit f) :
    e = f := by
  have hmark : ∀ {mark : Char}, mark.isDigit = false → ∀ n, mark ∉ Text.ofNat n := by
    intro mark hmark n hmem
    rw [isDigit_of_mem_ofNat hmem] at hmark
    exact absurd hmark (by decide)
  have hhyphen := hmark (by decide : '-'.isDigit = false)
  have hcolon := hmark (by decide : ':'.isDigit = false)
  rw [edit_eq, edit_eq] at h
  obtain ⟨hid, h⟩ := append_cons_inj he hf (List.append_cancel_left h)
  obtain ⟨hstart, h⟩ := append_cons_inj (hhyphen _) (hhyphen _) (List.cons.inj h).2
  obtain ⟨hstop, h⟩ := append_cons_inj (hcolon _) (hcolon _) h
  obtain ⟨hbefore, h⟩ := quoted_append_inj (List.cons.inj h).2
  have hafter : e.after = f.after := by
    have hend : quoted e.after ++ [] = quoted f.after ++ [] := by rw [List.append_cancel_left h]
    exact (quoted_append_inj hend).1
  show Edit.mk e.ruleId e.start e.stop e.before e.after = f
  rw [hid, ofNat_inj hstart, ofNat_inj hstop, hbefore, hafter]

/-- Edits can be told from their lines, one by one. -/
theorem map_edit_inj {es fs : List Edit} (hes : ∀ e ∈ es, ']' ∉ e.ruleId)
    (hfs : ∀ f ∈ fs, ']' ∉ f.ruleId) (h : es.map edit = fs.map edit) : es = fs := by
  induction es generalizing fs with
  | nil => exact (List.map_eq_nil_iff.1 h.symm).symm
  | cons e es ih =>
      cases fs with
      | nil => exact absurd h (List.cons_ne_nil _ _)
      | cons f fs =>
          obtain ⟨he, hes⟩ := List.forall_mem_cons.1 hes
          obtain ⟨hf, hfs⟩ := List.forall_mem_cons.1 hfs
          obtain ⟨hline, hlines⟩ := List.cons.inj h
          rw [edit_inj he hf hline, ih hes hfs hlines]

/-- No usual rule has a bracket in its identifier. -/
theorem bracket_notMem_ids : ∀ id ∈ Catalog.standard.ids, ']' ∉ id := by
  decide

/-- The listing of edits by the usual rules is unambiguous. It has a heading and one line for each
edit, for every way of ending a line, and it is the same listing only for the same edits. -/
theorem edits_unambiguous {result other : Result}
    (h : ∀ e ∈ result.edits, e.ruleId ∈ Catalog.standard.ids)
    (hother : ∀ e ∈ other.edits, e.ruleId ∈ Catalog.standard.ids) :
    (lines (edits result)).length = 1 + result.edits.length ∧
    lines (edits result) = heading result :: result.edits.map edit ∧
    (edits result = edits other ↔ result.edits = other.edits) := by
  have hlines : ∀ {result : Result}, (∀ e ∈ result.edits, e.ruleId ∈ Catalog.standard.ids) →
      lines (edits result) = heading result :: result.edits.map edit := by
    intro result h
    exact lines_edits fun e he => List.all_eq_true.1 (Catalog.ids_printable _ (h e he))
  refine ⟨?_, hlines h, fun heq => ?_, fun heq => ?_⟩
  · rw [hlines h, List.length_cons, List.length_map, Nat.add_comm]
  · have hmap := congrArg lines heq
    rw [hlines h, hlines hother] at hmap
    exact map_edit_inj (fun e he => bracket_notMem_ids _ (h e he))
      (fun f hf => bracket_notMem_ids _ (hother f hf)) (List.cons.inj hmap).2
  · unfold edits
    rw [heq]

/-- Texts with quotes and arrows do not hide where one text ends and the next one begins, and line
feeds in them do not end the line. -/
theorem edits_unambiguous_arrows :
    let result : Result := ⟨[], [⟨"model.identifier", 0, 9, "x", "y' -> 'z\n\"\x1b[m"⟩]⟩
    let other : Result := ⟨[], [⟨"model.identifier", 0, 9, "x' -> 'y", "z\n\"\x1b[m"⟩]⟩
    (∀ e ∈ result.edits, e.ruleId ∈ Catalog.standard.ids) ∧
    (∀ e ∈ other.edits, e.ruleId ∈ Catalog.standard.ids) ∧
    (lines (edits result)).length = 2 ∧ edits result ≠ edits other := by
  intro result other
  have hresult : ∀ e ∈ result.edits, e.ruleId ∈ Catalog.standard.ids := by decide
  have hother : ∀ e ∈ other.edits, e.ruleId ∈ Catalog.standard.ids := by decide
  obtain ⟨hlength, -, hiff⟩ := edits_unambiguous hresult hother
  refine ⟨hresult, hother, hlength, fun heq => ?_⟩
  exact absurd (hiff.1 heq) (by decide)

end Listing

end SdkUpgrade

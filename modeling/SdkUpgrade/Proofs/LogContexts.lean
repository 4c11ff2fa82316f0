import SdkUpgrade.Proofs.CatalogAlgebra
import SdkUpgrade.Proofs.Endings

/-!
# The context of a log line can be read back

A context stands at the end of a line of the log as words with spaces between them, each of which
is a key and a value with an equals sign between them. A reader who knows no more than that finds
the keys and the values again, if no key has a space or an equals sign:
`Log.readContext?_contextText`. Values may hold anything, because they are reduced to letters,
numbers and a few marks in the log.

What is read stands in the order of the keys, in whatever order they were given:
`Log.ordered_eq_of_perm`. Only a value with an integer of too many digits cannot stand in a line:
`Log.format_eq`. `Log.context_canonical` puts all this together.
-/

namespace SdkUpgrade

/-- Of two different texts, the first in the order of texts is the first in the lexicographic
order of code points. -/
theorem Text.lex_of_le {first second : Text} (hle : Text.le first second = true)
    (hne : first ≠ second) : List.Lex (fun c d => c.toNat < d.toNat) first second := by
  induction first generalizing second with
  | nil =>
      cases second with
      | nil => exact absurd rfl hne
      | cons d second => exact .nil
  | cons c first ih =>
      cases second with
      | nil => exact absurd hle (by simp [Text.le])
      | cons d second =>
          rw [Text.le] at hle
          split at hle
          · rename_i heq
            subst heq
            exact .cons (ih hle fun h => hne (h ▸ rfl))
          · exact .rel (of_decide_eq_true hle)

namespace Log

open Text

/-! ## Values in the log -/

theorem token_ne_nil (value : Value) : token value ≠ [] := by
  unfold token sanitized
  split
  · decide
  · rename_i hsome
    exact fun hnil => hsome (List.map_eq_nil_iff.1 hnil)

/-- What stands in the log for a value stands for itself. -/
theorem token_token (value : Value) : token (.scalar (.text (token value))) = token value :=
  token_of_isKept (token_ne_nil value) fun _ hmem => isKept_of_mem_token hmem

/-! ## The order of the entries -/

variable {context other : Context}

theorem ordered_perm (context : Context) : (ordered context).Perm context :=
  List.mergeSort_perm context _

theorem pairwise_ordered (context : Context) :
    (ordered context).Pairwise fun a b => Text.le a.1 b.1 = true := by
  have htrans : ∀ a b c : Text × Value, Text.le a.1 b.1 = true → Text.le b.1 c.1 = true →
      Text.le a.1 c.1 = true := fun _ _ _ hab hbc => Text.le_trans hab hbc
  exact List.pairwise_mergeSort htrans (fun a b => Text.le_total a.1 b.1) context

theorem nodup_keys_ordered (hkeys : (context.map Prod.fst).Nodup) :
    ((ordered context).map Prod.fst).Nodup :=
  ((ordered_perm context).map Prod.fst).nodup_iff.2 hkeys

/-- Entries with distinct keys stand in the strict order of their keys. -/
theorem lex_ordered (hkeys : (context.map Prod.fst).Nodup) :
    (ordered context).Pairwise fun a b => List.Lex (fun c d => c.toNat < d.toNat) a.1 b.1 := by
  have hdistinct : (ordered context).Pairwise fun a b => a.1 ≠ b.1 :=
    List.pairwise_map.1 (nodup_keys_ordered hkeys)
  exact (pairwise_ordered context).imp₂ (fun _ _ => lex_of_le) hdistinct

/-- The order in which entries with distinct keys are given does not matter. -/
theorem ordered_eq_of_perm (hkeys : (context.map Prod.fst).Nodup) (h : other.Perm context) :
    ordered other = ordered context := by
  have hperm : (ordered other).Perm (ordered context) :=
    (ordered_perm other).trans (h.trans (ordered_perm context).symm)
  exact eq_of_perm_of_keys (fun _ _ hab hba => le_antisymm hab hba) (nodup_keys_ordered hkeys)
    (pairwise_ordered other) (pairwise_ordered context) hperm

/-! ## Reading a context -/

/-- The key and the value that the first equals sign of a word divides. -/
def entry? (word : Text) : Option (Text × Text) :=
  match word.dropWhile (· ≠ '=') with
  | [] => none
  | _ :: value => some (word.takeWhile (· ≠ '='), value)

/-- The keys and the values of a context as it stands at the end of a line: a space, and words
with single spaces between them. -/
def readContext? : Text → Option (List (Text × Text))
  | ' ' :: words => (split ' ' words).mapM entry?
  | _ => none

/-- The word of an entry. -/
def word (entry : Text × Value) : Text :=
  entry.1 ++ '=' :: token entry.2

/-- The key and the value of an entry as they stand in the log. -/
def shown (entry : Text × Value) : Text × Text :=
  (entry.1, token entry.2)

/-- A word is divided behind its key. -/
theorem entry?_word {entry : Text × Value} (h : '=' ∉ entry.1) :
    entry? (word entry) = some (shown entry) := by
  have hkey : ∀ c ∈ entry.1, decide (c ≠ '=') = true := fun c hc =>
    decide_eq_true fun heq => h (heq ▸ hc)
  have hsign : ('=' :: token entry.2).head?.any (fun c => decide (c ≠ '=')) = false := rfl
  unfold entry? word
  rw [dropWhile_stretch hkey hsign, takeWhile_stretch hkey hsign]
  rfl

theorem space_notMem_word {entry : Text × Value} (h : ' ' ∉ entry.1) : ' ' ∉ word entry := by
  refine List.not_mem_append h (List.not_mem_cons_of_ne_of_not_mem (by decide) fun hmem => ?_)
  exact absurd (isKept_of_mem_token hmem) (by decide)

/-- Words with a space in front of each are a space and the words with spaces between them. -/
theorem flatMap_space {words : List Text} (hne : words ≠ []) :
    words.flatMap (fun word => ' ' :: word) = ' ' :: join [' '] words := by
  induction words with
  | nil => exact absurd rfl hne
  | cons first words ih =>
      cases words with
      | nil => simp [join]
      | cons second words =>
          rw [List.flatMap_cons, ih (List.cons_ne_nil _ _), join]
          simp only [List.cons_append, List.append_assoc, List.nil_append]

theorem mapM_entry?_words {entries : Context} (h : ∀ entry ∈ entries, '=' ∉ entry.1) :
    (entries.map word).mapM entry? = some (entries.map shown) := by
  induction entries with
  | nil => rfl
  | cons entry entries ih =>
      obtain ⟨hentry, hentries⟩ := List.forall_mem_cons.1 h
      rw [List.map_cons, List.mapM_cons, entry?_word hentry, ih hentries]
      rfl

/-- The keys and the values of a context are read back in the order of the keys. -/
theorem readContext?_contextText (hne : context ≠ [])
    (hplain : ∀ entry ∈ context, ' ' ∉ entry.1 ∧ '=' ∉ entry.1) :
    readContext? (contextText context) = some ((ordered context).map shown) := by
  have hmem : ∀ entry ∈ ordered context, entry ∈ context := fun _ =>
    (ordered_perm context).mem_iff.1
  have hwords : (ordered context).map word ≠ [] := by
    rw [Ne, List.map_eq_nil_iff, ← List.length_eq_zero_iff, (ordered_perm context).length_eq,
      List.length_eq_zero_iff]
    exact hne
  have htext : contextText context = ' ' :: join [' '] ((ordered context).map word) := by
    rw [← flatMap_space hwords, List.flatMap_map]
    unfold contextText
    refine List.flatMap_congr fun entry _ => ?_
    simp [word]
  have hspaces : ∀ text ∈ (ordered context).map word, ' ' ∉ text := by
    intro text htext
    obtain ⟨entry, hentry, rfl⟩ := List.mem_map.1 htext
    exact space_notMem_word (hplain entry (hmem entry hentry)).1
  rw [htext, readContext?, split_join hwords hspaces]
  exact mapM_entry?_words fun entry hentry => (hplain entry (hmem entry hentry)).2

/-! ## Contexts that have a text -/

theorem token?_eq (value : Value) :
    token? value = if value.isShort then .ok (token value) else .error .tooManyDigits := by
  rw [token?, Value.read]
  split <;> rfl

/-- Entries are shown one by one, unless one of them has a value that cannot be shown. -/
theorem mapM_token? (entries : Context) :
    (entries.mapM fun (name, value) =>
        (token? value).map fun token => " " ++ name ++ "=" ++ token) =
      if entries.all fun entry => entry.2.isShort then
        .ok (entries.map fun entry => " " ++ entry.1 ++ "=" ++ token entry.2)
      else .error .tooManyDigits := by
  induction entries with
  | nil => rfl
  | cons entry entries ih =>
      obtain ⟨name, value⟩ := entry
      rw [List.mapM_cons, ih, List.all_cons]
      by_cases hvalue : value.isShort = true
      · by_cases hrest : (entries.all fun entry => entry.2.isShort) = true
        · simp only [token?_eq, hvalue, hrest]
          rfl
        · simp only [token?_eq, hvalue, hrest]
          rfl
      · simp only [token?_eq, hvalue]
        rfl

/-- A context has a text exactly if no value in it has an integer of too many digits. -/
theorem format_eq (context : Context) :
    format context = if context.all fun entry => entry.2.isShort then .ok (contextText context)
      else .error .tooManyDigits := by
  rw [format, mapM_token?, (ordered_perm context).all_eq]
  split
  · exact congrArg Except.ok List.flatMap_def.symm
  · rfl

/-- The context of a log line is canonical and can be read back. Let its keys be distinct, and
without spaces and equals signs. Then the reader finds each key with what stands in the log for
its value, in the strict order of the keys, and nothing else. The text is the same for every order
of the entries. What stands in the log for a value is never empty, has only letters, numbers and
five marks, and stands for itself. The context has no text for one reason only: an integer in a
value has too many digits to be shown. -/
theorem context_canonical (hne : context ≠ []) (hkeys : (context.map Prod.fst).Nodup)
    (hplain : ∀ entry ∈ context, ' ' ∉ entry.1 ∧ '=' ∉ entry.1) :
    (∃ entries : Context, entries.Perm context ∧
      entries.Pairwise (fun a b => List.Lex (fun c d => c.toNat < d.toNat) a.1 b.1) ∧
      readContext? (contextText context) =
        some (entries.map fun entry => (entry.1, token entry.2))) ∧
    (∀ other : Context, other.Perm context →
      contextText other = contextText context ∧ format other = format context) ∧
    (∀ value : Value, token value ≠ [] ∧
      (∀ c ∈ token value, isAlphanumeric c = true ∨ c ∈ ['-', '_', '.', ':', '/']) ∧
      token (.scalar (.text (token value))) = token value ∧
      token? value = if value.isShort then .ok (token value) else .error .tooManyDigits) ∧
    format context = if context.all fun entry => entry.2.isShort then .ok (contextText context)
      else .error .tooManyDigits := by
  refine ⟨⟨ordered context, ordered_perm context, lex_ordered hkeys,
    readContext?_contextText hne hplain⟩, fun other hperm => ?_, fun value => ?_,
      format_eq context⟩
  · have htext : contextText other = contextText context := by
      rw [contextText, contextText, ordered_eq_of_perm hkeys hperm]
    refine ⟨htext, ?_⟩
    rw [format_eq, format_eq, htext, hperm.all_eq]
  · refine ⟨token_ne_nil value, fun c hmem => ?_, token_token value, token?_eq value⟩
    have hkept := isKept_of_mem_token hmem
    simpa [isKept, or_assoc] using hkept

/-- Spaces, equals signs and line feeds in a value, a blank value and an empty key are read back
in their places, and the entries may be given backwards. -/
theorem context_canonical_mixed :
    let context : Context := [("", .scalar .null), ("out", .scalar (.text "\t")),
      ("rewrites", .list [.scalar (.int 3)]), ("source", .scalar (.text " a b=c\n"))]
    let pairs : List (Text × Text) :=
      [([], "None"), ("out", "none"), ("rewrites", "_3_"), ("source", "a_b_c")]
    context ≠ [] ∧ (context.map Prod.fst).Nodup ∧
    (∀ entry ∈ context, ' ' ∉ entry.1 ∧ '=' ∉ entry.1) ∧
    contextText context.reverse = contextText context ∧
    format context.reverse = .ok (contextText context) ∧
    readContext? (contextText context.reverse) = some pairs := by
  intro context pairs
  have hkeys : (context.map Prod.fst).Nodup := by decide
  have hplain : ∀ key ∈ context.map Prod.fst, ' ' ∉ key ∧ '=' ∉ key := by decide
  have hplain : ∀ entry ∈ context, ' ' ∉ entry.1 ∧ '=' ∉ entry.1 := fun entry hmem =>
    hplain entry.1 (List.mem_map_of_mem hmem)
  have hsorted : (context.map Prod.fst).Pairwise fun a b => Text.le a b = true := by decide
  have hordered : ordered context = context :=
    List.mergeSort_of_pairwise (List.pairwise_map.1 hsorted)
  have hthree : Scalar.isShort (.int 3) = true := Scalar.isShort_int (by decide)
  have hshort : (context.all fun entry => entry.2.isShort) = true := by
    simp only [context, List.all_cons, List.all_nil, Value.isShort, Value.itemsShort, hthree]
    rfl
  obtain ⟨-, hperm, -, hformat⟩ := context_canonical (List.cons_ne_nil _ _) hkeys hplain
  obtain ⟨hreverse, hsame⟩ := hperm context.reverse (List.reverse_perm context)
  refine ⟨List.cons_ne_nil _ _, hkeys, hplain, hreverse, ?_, ?_⟩
  · rw [hsame, hformat, if_pos hshort]
  · rw [hreverse, readContext?_contextText (List.cons_ne_nil _ _) hplain, hordered]
    rfl

end Log

end SdkUpgrade

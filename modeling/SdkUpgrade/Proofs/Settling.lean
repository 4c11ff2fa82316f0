import SdkUpgrade.Proofs.Convergence
import SdkUpgrade.Proofs.EngineKeys
import SdkUpgrade.Proofs.Prompts

/-!
# When one run of the engine is enough

The output of a run is clear of what the rules for names look for. What can be left in it are
long names between quotes, prompts in chat calls and engine keys. A text is `Settled` if nothing
is left, and `Engine.run_run_iff` says that a second run changes nothing exactly if the output of
the first one is settled.

A long name is left wherever it stands. Prompts and engine keys can begin inside others, and such
a one is left only if the pass comes to it. Which ones these are does not depend on the way a pass
goes: they form the only `Selection` from all that stand in the text in which none begins inside
another one and every one that is not selected begins inside one that is.
-/

namespace SdkUpgrade

open Text Source

/-! ## Selections -/

/-- Some of the items that stand at the indices of a text are chosen: none of them begins inside
another one, and every item that is not chosen begins inside a chosen one. -/
structure Selection {α : Type} (width : α → Nat) (stands chosen : Nat → α → Prop) : Prop where
  sound {i : Nat} {a : α} : chosen i a → stands i a
  apart {i j : Nat} {a b : α} : chosen i a → chosen j b → i < j → i + width a ≤ j
  others {i : Nat} {a : α} : stands i a → chosen i a ∨ ∃ j b, chosen j b ∧ j < i ∧ i < j + width b

namespace Selection

variable {α : Type} {width : α → Nat} {stands chosen chosen' : Nat → α → Prop}

/-- What is chosen at an index is chosen there by every selection that has the same items before
it. -/
theorem mem_of_earlier (h : Selection width stands chosen) (h' : Selection width stands chosen')
    {i : Nat} (hearlier : ∀ j < i, ∀ b, chosen' j b → chosen j b) {a : α} (ha : chosen i a) :
    chosen' i a := by
  rcases h'.others (h.sound ha) with hchosen | ⟨j, b, hb, hlt, hinside⟩
  · exact hchosen
  · have hapart := h.apart (hearlier j hlt b hb) ha hlt
    omega

/-- There is at most one selection. -/
theorem unique (h : Selection width stands chosen)
    (h' : Selection width stands chosen') (i : Nat) : ∀ a, chosen i a ↔ chosen' i a := by
  induction i using Nat.strongRecOn with
  | _ i ih =>
      exact fun a => ⟨h.mem_of_earlier h' fun j hj b => (ih j hj b).2,
        h'.mem_of_earlier h fun j hj b => (ih j hj b).1⟩

end Selection

/-! ## The hits of a pass are selected -/

/-- The place in front of the character at an index. -/
def Cursor.ofIndex (text : Text) (i : Nat) : Cursor :=
  ⟨(text.take i).reverse, text.drop i⟩

theorem Cursor.ofIndex_length (before after : Text) :
    ofIndex (before.reverse ++ after) before.length = ⟨before, after⟩ := by
  simp [ofIndex, List.take_left' List.length_reverse, List.drop_left' List.length_reverse]

/-- The hits of a pass with the indices that they begin at, the first of which is given. -/
def hitsFrom : Nat → List Piece → List (Nat × Hit)
  | _, [] => []
  | n, .kept _ :: pieces => hitsFrom (n + 1) pieces
  | n, .hit hit :: pieces => (n, hit) :: hitsFrom (n + hit.matched.length) pieces

section Hits

variable {n i : Nat} {pieces : List Piece} {hit : Hit} {find? : Cursor → Option Hit}

theorem exists_mem_hitsFrom_iff : (∃ i, (i, hit) ∈ hitsFrom n pieces) ↔ .hit hit ∈ pieces := by
  induction pieces generalizing n with
  | nil => simp [hitsFrom]
  | cons piece pieces ih =>
      cases piece with
      | kept c => simp [hitsFrom, ih]
      | hit found => simp [hitsFrom, exists_or, ih]

theorem le_of_mem_hitsFrom (h : (i, hit) ∈ hitsFrom n pieces) : n ≤ i := by
  induction pieces generalizing n with
  | nil => exact absurd h List.not_mem_nil
  | cons piece pieces ih =>
      cases piece with
      | kept c => exact Nat.le_of_succ_le (ih h)
      | hit found =>
          rcases List.mem_cons.1 h with heq | hmem
          · exact Nat.le_of_eq (Prod.mk.inj heq).1.symm
          · exact Nat.le_trans (Nat.le_add_right n _) (ih hmem)

/-- No hit of a pass begins inside another one. -/
theorem apart_of_mem_hitsFrom {j : Nat} {other : Hit} (h : (i, hit) ∈ hitsFrom n pieces)
    (hother : (j, other) ∈ hitsFrom n pieces) (hlt : i < j) : i + hit.matched.length ≤ j := by
  induction pieces generalizing n with
  | nil => exact absurd h List.not_mem_nil
  | cons piece pieces ih =>
      cases piece with
      | kept c => exact ih h hother
      | hit found =>
          rcases List.mem_cons.1 h with heq | hmem
          · obtain ⟨rfl, rfl⟩ := Prod.mk.inj heq
            rcases List.mem_cons.1 hother with heq | hmem
            · exact absurd (Prod.mk.inj heq).1.symm (Nat.ne_of_lt hlt)
            · exact le_of_mem_hitsFrom hmem
          · rcases List.mem_cons.1 hother with heq | hother
            · have hle := le_of_mem_hitsFrom hmem
              rw [(Prod.mk.inj heq).1] at hlt
              omega
            · exact ih hmem hother

/-- A hit of a pass is recognised where it begins. -/
theorem ofIndex_of_mem_hitsFrom (hf : Recognises find?) (before after : Text) :
    (i, hit) ∈ hitsFrom before.length (SdkUpgrade.pieces find? 0 before after) →
      find? (.ofIndex (before.reverse ++ after) i) = some hit := by
  induction before, after using pass_induction hf with
  | nil before => exact fun h => absurd h List.not_mem_nil
  | kept before c after hnone ih =>
      intro h
      rw [SdkUpgrade.pieces, hnone] at h
      simpa using ih h
  | hit before found rest hfound ih =>
      intro h
      rw [pieces_hit hf hfound, hitsFrom] at h
      rcases List.mem_cons.1 h with heq | hmem
      · obtain ⟨rfl, rfl⟩ := Prod.mk.inj heq
        rwa [Cursor.ofIndex_length]
      · simpa using ih (by simpa [Nat.add_comm] using hmem)

/-- What is recognised at an index is a hit of the pass, or it begins inside one. -/
theorem mem_hitsFrom_or_inside (hf : Recognises find?) (before after : Text) :
    before.length ≤ i → find? (.ofIndex (before.reverse ++ after) i) = some hit →
      let hits := hitsFrom before.length (SdkUpgrade.pieces find? 0 before after)
      (i, hit) ∈ hits ∨ ∃ j other, (j, other) ∈ hits ∧ j < i ∧ i < j + other.matched.length := by
  induction before, after using pass_induction hf with
  | nil before =>
      intro hle hfound
      obtain ⟨hne, hbegins⟩ := hf _ _ hfound
      have hend : (Cursor.ofIndex (before.reverse ++ []) i).after = [] := by
        simpa [Cursor.ofIndex] using hle
      rw [hend] at hbegins
      exact absurd (List.prefix_nil.1 hbegins) hne
  | kept before c after hnone ih =>
      intro hle hfound
      rcases Nat.eq_or_lt_of_le hle with rfl | hlt
      · rw [Cursor.ofIndex_length, hnone] at hfound
        exact absurd hfound (by simp)
      · rw [SdkUpgrade.pieces, hnone]
        exact ih hlt (by simpa using hfound)
  | hit before found rest hhit ih =>
      intro hle hfound
      rw [pieces_hit hf hhit, hitsFrom]
      rcases Nat.eq_or_lt_of_le hle with rfl | hlt
      · rw [Cursor.ofIndex_length, hhit] at hfound
        obtain rfl := Option.some.inj hfound
        exact .inl List.mem_cons_self
      · by_cases hinside : i < before.length + found.matched.length
        · exact .inr ⟨before.length, found, List.mem_cons_self, hlt, hinside⟩
        · have hlength : (found.matched.reverse ++ before).length =
              before.length + found.matched.length := by simp [Nat.add_comm]
          have hbehind := ih (by omega) (by simpa using hfound)
          rw [hlength] at hbehind
          rcases hbehind with hmem | ⟨j, other, hmem, hcovered⟩
          · exact .inl (List.mem_cons_of_mem _ hmem)
          · exact .inr ⟨j, other, List.mem_cons_of_mem _ hmem, hcovered⟩

/-- A pass has a hit if something is recognised anywhere in the text. -/
theorem exists_hit_of_ofIndex (hf : Recognises find?) {text : Text}
    (h : find? (.ofIndex text i) ≠ none) : ∃ hit, Piece.hit hit ∈ scan find? text := by
  obtain ⟨hit, hfound⟩ := Option.ne_none_iff_exists'.1 h
  rcases mem_hitsFrom_or_inside hf [] text (Nat.zero_le i) hfound with hmem | ⟨j, other, hmem, -⟩
  · exact ⟨hit, exists_mem_hitsFrom_iff.1 ⟨i, hmem⟩⟩
  · exact ⟨other, exists_mem_hitsFrom_iff.1 ⟨j, hmem⟩⟩

end Hits

section Items

variable {α : Type} {read? : Cursor → Option α} {written : α → Text} {result : Cursor → α → Text}
  {find? : Cursor → Option Hit}

/-- The pass takes the item that is read at an index. -/
def Taken (read? : Cursor → Option α) (find? : Cursor → Option Hit)
    (text : Text) (i : Nat) (a : α) : Prop :=
  read? (.ofIndex text i) = some a ∧ ∃ hit, (i, hit) ∈ hitsFrom 0 (scan find? text)

/-- The items that a pass takes are a selection. -/
theorem selection_taken (hf : Recognises find?)
    (hfind : ∀ c, find? c = (read? c).map fun a => ⟨written a, result c a⟩) (text : Text) :
    Selection (fun a => (written a).length) (fun i a => read? (.ofIndex text i) = some a)
      (Taken read? find? text) := by
  have hwidth : ∀ {i a hit}, read? (.ofIndex text i) = some a →
      (i, hit) ∈ hitsFrom 0 (scan find? text) → hit.matched = written a := by
    intro i a hit ha hmem
    have hfound := ofIndex_of_mem_hitsFrom hf [] text hmem
    rw [List.reverse_nil, List.nil_append, hfind, ha, Option.map_some] at hfound
    rw [← Option.some.inj hfound]
  constructor
  case sound => exact And.left
  case apart =>
    rintro i j a b ⟨ha, hit, hmem⟩ ⟨-, other, hother⟩ hlt
    have hapart := apart_of_mem_hitsFrom hmem hother hlt
    rwa [hwidth ha hmem] at hapart
  case others =>
    intro i a ha
    have hfound : find? (.ofIndex text i) = some ⟨written a, result (.ofIndex text i) a⟩ := by
      rw [hfind, ha, Option.map_some]
    rcases mem_hitsFrom_or_inside hf [] text (Nat.zero_le i) hfound with
      hmem | ⟨j, other, hmem, hlt, hinside⟩
    · exact .inl ⟨ha, _, hmem⟩
    · have hother := ofIndex_of_mem_hitsFrom hf [] text hmem
      rw [List.reverse_nil, List.nil_append, hfind] at hother
      obtain ⟨b, hb, -⟩ := Option.map_eq_some_iff.1 hother
      rw [hwidth hb hmem] at hinside
      exact .inr ⟨j, b, ⟨hb, other, hmem⟩, hlt, hinside⟩

/-- A pass over items that are read where they stand changes none of those that it takes exactly
if a selection from all the items has only items that are left as they are. -/
theorem forall_hit_iff_selection (hf : Recognises find?)
    (hfind : ∀ c, find? c = (read? c).map fun a => ⟨written a, result c a⟩)
    {text : Text} {stands left : Nat → α → Prop}
    (hstands : ∀ i a, read? (.ofIndex text i) = some a ↔ stands i a)
    (hleft : ∀ i a, stands i a → (result (.ofIndex text i) a = written a ↔ left i a)) :
    (∀ hit, Piece.hit hit ∈ scan find? text → hit.replacement = hit.matched) ↔
      ∃ chosen, Selection (fun a => (written a).length) stands chosen ∧
        ∀ i a, chosen i a → left i a := by
  have hread : ∀ {i hit}, (i, hit) ∈ hitsFrom 0 (scan find? text) →
      (read? (.ofIndex text i)).map (fun a => ⟨written a, result (.ofIndex text i) a⟩) =
        some hit :=
    fun hmem => (hfind _).symm.trans (ofIndex_of_mem_hitsFrom hf [] text hmem)
  have htaken := selection_taken hf hfind text
  simp only [hstands] at htaken
  constructor
  · intro h
    refine ⟨_, htaken, fun i a hchosen => (hleft i a (htaken.sound hchosen)).1 ?_⟩
    obtain ⟨ha, hit, hmem⟩ := hchosen
    have hhit := hread hmem
    rw [ha, Option.map_some] at hhit
    obtain rfl := Option.some.inj hhit
    exact h _ (exists_mem_hitsFrom_iff.1 ⟨i, hmem⟩)
  · rintro ⟨chosen, hchosen, hsame⟩ hit hhit
    obtain ⟨i, hmem⟩ := exists_mem_hitsFrom_iff.2 hhit
    obtain ⟨a, ha, rfl⟩ := Option.map_eq_some_iff.1 (hread hmem)
    have hitem := (hchosen.unique htaken i a).2 ⟨ha, _, hmem⟩
    exact (hleft i a (hchosen.sound hitem)).2 (hsame i a hitem)

end Items

/-! ## Passes without edits -/

/-- A pass makes no edit exactly if it changes none of its hits. -/
theorem editsFrom_eq_nil_iff {ruleId : Text} {offset : Nat} {pieces : List Piece} :
    editsFrom ruleId offset pieces = [] ↔
      ∀ hit, Piece.hit hit ∈ pieces → hit.replacement = hit.matched := by
  induction pieces generalizing offset with
  | nil => simp [editsFrom]
  | cons piece pieces ih =>
      cases piece with
      | kept c => simp [editsFrom, ih]
      | hit found =>
          simp only [editsFrom, List.mem_cons, Piece.hit.injEq]
          split
          · rename_i hsame
            rw [ih]
            constructor
            · rintro h hit (rfl | hmem)
              · exact hsame
              · exact h hit hmem
            · exact fun h hit hmem => h hit (.inr hmem)
          · rename_i hother
            constructor
            · exact fun h => absurd h (by simp)
            · exact fun h => absurd (h found (.inl rfl)) hother

/-- The rule for long names makes no edit exactly if no long name stands between equal quotes. -/
theorem ModelMention.edits_eq_nil_iff (radius : Option Nat) (text : Text) :
    (Rule.ofKind .modelName).edits radius text = [] ↔
      ∀ q model, isQuote q = true → model ∈ RetiredModel.longNames →
        ¬ q :: (model ++ [q]) <:+: text := by
  have hrec := recognises_longHit? radius
  have hfresh : ∀ successor ∈ successors, successor ∉ RetiredModel.longNames := by decide
  constructor
  · rintro h q model hq hmodel ⟨before, after, hsplit⟩
    -- Where a name stands, the pass has a hit, and there is no hit that it does not change.
    have hfound : longHit? radius (.ofIndex text before.length) ≠ none := by
      have hname := quotedName?_ne_none_iff.2 ⟨q, model, after, hq, hmodel, rfl⟩
      rw [longHit?, longAt?, Ne, Option.map_eq_none_iff, Option.map_eq_none_iff]
      simpa [Cursor.ofIndex, ← hsplit] using hname
    obtain ⟨hit, hhit⟩ := exists_hit_of_ofIndex hrec hfound
    have hsame := editsFrom_eq_nil_iff.1 h hit hhit
    obtain ⟨i, hmem⟩ := exists_mem_hitsFrom_iff.2 hhit
    obtain ⟨q', name, successor, -, hname, hsuccessor, hmatched, hreplacement⟩ :=
      of_longHit?_eq_some (ofIndex_of_mem_hitsFrom hrec [] text hmem)
    rw [hmatched, hreplacement] at hsame
    have hequal := List.append_cancel_right (List.cons.inj hsame).2
    exact hfresh successor hsuccessor (hequal ▸ hname)
  · intro h
    refine Rule.edits_eq_nil fun c hc => ?_
    cases hh : longHit? radius c with
    | none => exact hh
    | some hit =>
        exfalso
        obtain ⟨-, rest, hrest⟩ := hrec c hit hh
        obtain ⟨q, model, successor, hq, hmodel, -, hmatched, -⟩ := of_longHit?_eq_some hh
        refine h q model hq hmodel ⟨c.before.reverse, rest, ?_⟩
        rw [← hc, Cursor.source, ← hrest, hmatched, List.append_assoc]

/-! ## Prompts and engine keys in a text -/

namespace Source

/-- The index is inside a call of a callee that ends with the given path. The callee stands in
front of the innermost parenthesis that is open there. -/
def InCall (path text : Text) (n : Nat) : Prop :=
  ∃ i run callee, Innermost text n i ∧ EndsInRun (slice text (i - 200) i) run ∧
    NameIn run (some callee) ∧ path <:+ callee

theorem inCall_iff {path text : Text} {n : Nat} : InCall path text n ↔
    (enclosingCallee? (text.take n).reverse).any (endsWith path) = true := by
  rw [Option.any_eq_true]
  constructor
  · rintro ⟨i, run, callee, hinnermost, hrun, hname, hpath⟩
    exact ⟨callee, enclosingCallee?_eq_iff.2 (.inr ⟨i, run, hinnermost, hrun, hname⟩),
      endsWith_iff.2 hpath⟩
  · rintro ⟨callee, hcallee, hpath⟩
    rcases enclosingCallee?_eq_iff.1 hcallee with ⟨hnone, -⟩ | ⟨i, run, hinnermost, hrun, hname⟩
    · exact absurd hnone (by simp)
    · exact ⟨i, run, callee, hinnermost, hrun, hname, endsWith_iff.1 hpath⟩

end Source

namespace PromptArgument

variable {text : Text} {i : Nat} {prompt : PromptArgument}

/-- The prompt stands at an index of the text. Its key does not continue a word, a path or a
string, and its value is a literal that ends as the delimiter that opens it demands, or the first
two of three quotes that nothing closes. -/
structure StandsAt (text : Text) (i : Nat) (prompt : PromptArgument) : Prop where
  alone : (text.take i).getLast?.any joinsKey = false
  keyQuote : IsOptionalQuote prompt.keyQuote
  separator : IsSeparator prompt.separator
  value : ∃ rest, text.drop i = prompt.text ++ rest ∧
    (prompt.value.Exact (prompt.value.text ++ rest) ∨ ∃ q, isQuote q = true ∧
      Literal.Unclosed q (prompt.value.text ++ rest) ∧ prompt.value = ⟨[q], []⟩)

/-- Prompts are found where they stand. -/
theorem at?_ofIndex_iff : at? (.ofIndex text i) = some prompt ↔ prompt.StandsAt text i := by
  have hfollows : (Cursor.ofIndex text i).follows joinsKey =
      (text.take i).getLast?.any joinsKey := by
    rw [Cursor.follows, Cursor.ofIndex, List.head?_reverse]
  have htext : ∀ rest, prompt.text ++ rest = prompt.keyQuote ++ ("prompt" ++ (prompt.keyQuote ++
      (prompt.separator ++ (prompt.value.text ++ rest)))) := by
    intro rest
    simp [PromptArgument.text]
  rw [at?_eq_some_iff, hfollows]
  constructor
  · rintro ⟨halone, hquote, hseparator, rest, hafter, hread⟩
    refine ⟨halone, hquote, hseparator, rest, ?_, (Literal.read?_eq_some_iff.1 hread).2⟩
    rw [htext]
    exact hafter
  · rintro ⟨halone, hquote, hseparator, rest, hafter, hvalue⟩
    refine ⟨halone, hquote, hseparator, rest, ?_, Literal.read?_eq_some_iff.2 ⟨rfl, hvalue⟩⟩
    rw [← htext]
    exact hafter

/-- The rule for prompts makes no edit exactly if the prompts selected from the text are
outside of chat calls. -/
theorem edits_eq_nil_iff (radius : Option Nat) (text : Text) :
    (Rule.ofKind .promptMessage).edits radius text = [] ↔
      ∃ chosen, Selection (fun prompt => prompt.text.length)
          (fun i prompt => StandsAt text i prompt) chosen ∧
        ∀ i prompt, chosen i prompt → ¬ InCall "chat.completions.create" text i := by
  refine editsFrom_eq_nil_iff.trans <| forall_hit_iff_selection recognises_hit? (fun _ => rfl)
    (fun _ _ => at?_ofIndex_iff) fun i prompt hstands => ?_
  have hcall : inChatCall (.ofIndex text i) = true ↔ InCall "chat.completions.create" text i :=
    inCall_iff.symm
  rw [← hcall]
  split
  · rename_i hin
    refine iff_of_false ?_ (not_not_intro hin)
    obtain ⟨-, hquote, -, q, -, hdelimiter⟩ := of_at?_eq_some (at?_ofIndex_iff.2 hstands)
    refine @messages_ne_text _ q hquote ?_
    rcases hdelimiter with hone | hthree
    · rw [hone]; rfl
    · rw [hthree]; rfl
  · rename_i hout
    exact iff_of_true rfl hout

end PromptArgument

namespace EngineKey

variable {text rest : Text} {i : Nat} {key : EngineKey}

/-- The key stands at an index of the text, its lead included. A key without a quoted value ends
with all the whitespace behind its sign, and its sign is no comparison. -/
structure StandsAt (text : Text) (i : Nat) (key : EngineKey) : Prop where
  lead : IsLead (text.take i).reverse key.lead
  keyQuote : IsOptionalQuote key.keyQuote
  separator : IsSeparator key.separator
  valueQuote : IsOptionalQuote key.valueQuote
  written : ∃ rest, text.drop i = key.named "engine" ++ rest ∧ (key.valueQuote = [] →
    rest.head?.any isBlank = false ∧ rest.head?.any isQuote = false ∧
      (key.separator.getLast? = some '=' → rest.head? ≠ some '='))

/-- Where the end of a key is read. -/
theorem value_iff : separator? (key.separator ++ (key.valueQuote ++ rest)) =
      some (key.separator, key.valueQuote ++ rest) ∧
        optionalQuote (key.valueQuote ++ rest) = (key.valueQuote, rest) ↔
    IsSeparator key.separator ∧ IsOptionalQuote key.valueQuote ∧ (key.valueQuote = [] →
      rest.head?.any isBlank = false ∧ rest.head?.any isQuote = false ∧
        (key.separator.getLast? = some '=' → rest.head? ≠ some '=')) := by
  constructor
  · rintro ⟨hseparator, hvalue⟩
    have hquote := isOptionalQuote_optionalQuote (key.valueQuote ++ rest)
    rw [hvalue] at hquote
    refine ⟨(isSeparator_of_separator? hseparator).1, hquote, fun hbare => ?_⟩
    obtain ⟨-, hblank, left, sign, right, hleft, hright, hsplit, hsign⟩ :=
      separator?_eq_some_iff.1 hseparator
    rw [hbare, List.nil_append] at hblank hvalue hsign
    refine ⟨hblank, ?_, fun hlast => ?_⟩
    · cases rest with
      | nil => rfl
      | cons c rest =>
          by_cases hc : isQuote c = true
          · simp [optionalQuote, hc] at hvalue
          · simpa using hc
    · -- Whitespace behind the sign would be the last character of the separator.
      cases right with
      | nil =>
          rw [hsplit, List.getLast?_concat] at hlast
          obtain rfl := Option.some.inj hlast
          exact (hsign.resolve_left (by decide)).2
      | cons c right =>
          have hblank : isBlank '=' = true := by
            refine hright _ (List.mem_of_getLast? ?_)
            rwa [hsplit, List.getLast?_append_cons, List.getLast?_cons_cons] at hlast
          exact absurd hblank (by decide)
  · rintro ⟨⟨left, sign, right, hleft, hsign, hright, hsplit⟩, hquote, hbare⟩
    rcases hquote with hnil | ⟨q, hq, hcons⟩
    · obtain ⟨hblank, hplain, hlast⟩ := hbare hnil
      rw [hnil, List.nil_append]
      refine ⟨separator?_eq_some_iff.2 ⟨rfl, hblank, left, sign, right, hleft, hright,
        hsplit, ?_⟩, optionalQuote_append_eq (.inl rfl) hplain⟩
      refine hsign.imp_right fun heq => ⟨heq, ?_⟩
      cases right with
      | nil =>
          refine hlast ?_
          rw [hsplit, List.getLast?_concat, heq]
      | cons c right =>
          intro hhead
          obtain rfl := Option.some.inj hhead
          exact absurd (hright _ List.mem_cons_self) (by decide)
    · rw [hcons]
      refine ⟨separator?_eq_some_iff.2 ⟨rfl, isBlank_of_isQuote hq, left, sign, right,
        hleft, hright, hsplit, hsign.imp_right fun heq => ⟨heq, head?_gap_quote hright hq⟩⟩, ?_⟩
      simp [optionalQuote, hq]

/-- Keys are found where they stand. -/
theorem at?_ofIndex_iff : at? (.ofIndex text i) = some key ↔ key.StandsAt text i := by
  rw [Cursor.ofIndex, at?_eq_some_iff]
  constructor
  · rintro ⟨hlead, hquote, rest, hafter, hread⟩
    obtain ⟨hseparator, hvalue, hbare⟩ := value_iff.1 hread
    exact ⟨hlead, hquote, hseparator, hvalue, rest, hafter, hbare⟩
  · rintro ⟨hlead, hquote, hseparator, hvalue, rest, hafter, hbare⟩
    exact ⟨hlead, hquote, rest, hafter, value_iff.2 ⟨hseparator, hvalue, hbare⟩⟩

/-- In front of the name of a key that stands in a text, its lead is read. -/
theorem StandsAt.take_lead (h : key.StandsAt text i) :
    (text.take (i + key.lead.length)).reverse = key.lead.reverse ++ (text.take i).reverse := by
  obtain ⟨rest, hafter, -⟩ := h.written
  have hlead : (text.drop i).take key.lead.length = key.lead := by
    rw [hafter, named_eq, List.append_assoc, List.take_left]
  rw [List.take_add, hlead, List.reverse_append]

/-- The rule for engine keys makes no edit exactly if the keys selected from the text have no
quoted value and are outside of calls of `create`. -/
theorem edits_eq_nil_iff (radius : Option Nat) (text : Text) :
    (Rule.ofKind .engineKey).edits radius text = [] ↔
      ∃ chosen, Selection (fun key => (key.named "engine").length)
          (fun i key => StandsAt text i key) chosen ∧
        ∀ i key, chosen i key →
          key.valueQuote = [] ∧ ¬ InCall ".create" text (i + key.lead.length) := by
  refine editsFrom_eq_nil_iff.trans <| forall_hit_iff_selection recognises_hit? (fun _ => rfl)
    (fun _ _ => at?_ofIndex_iff) fun i key hstands => ?_
  have hcall : inCreateCall (.ofIndex text i) key = true ↔
      InCall ".create" text (i + key.lead.length) := by
    rw [inCall_iff, hstands.take_lead]
    rfl
  rw [← hcall]
  split
  · rename_i hrenamed
    refine iff_of_false (fun heq => ?_) fun hleft => hrenamed.elim (· hleft.1) hleft.2
    rw [named_eq, named_eq, List.append_cancel_left_eq, List.append_cancel_left_eq] at heq
    exact absurd (List.cons.inj heq).1 (by decide)
  · rename_i hkept
    obtain ⟨hbare, hout⟩ := not_or.1 hkept
    exact iff_of_true rfl ⟨not_not.1 hbare, hout⟩

end EngineKey

/-! ## Settled texts -/

/-- Nothing is left for a second run: the prompts selected from the text are outside of chat
calls, no long name stands between equal quotes, and the engine keys selected from it have no
quoted value and are outside of calls of `create`. -/
structure Settled (text : Text) : Prop where
  prompts : ∃ chosen, Selection (fun prompt => prompt.text.length)
      (fun i prompt => PromptArgument.StandsAt text i prompt) chosen ∧
    ∀ i prompt, chosen i prompt → ¬ InCall "chat.completions.create" text i
  models : ∀ q model, isQuote q = true → model ∈ RetiredModel.longNames →
    ¬ q :: (model ++ [q]) <:+: text
  engines : ∃ chosen, Selection (fun key => (key.named "engine").length)
      (fun i key => EngineKey.StandsAt text i key) chosen ∧
    ∀ i key, chosen i key → key.valueQuote = [] ∧ ¬ InCall ".create" text (i + key.lead.length)

/-- A run over a clear text makes no edit exactly if the text is settled. -/
theorem Clear.edits_run_eq_nil_iff {radius : Option Nat} {text : Text} (h : Clear radius text) :
    ((Engine.plain radius).run text).edits = [] ↔ Settled text := by
  have hedits : ((Engine.plain radius).run text).edits = [] ↔
      ∀ rule ∈ Catalog.standard.rules, rule.edits radius text = [] :=
    edits_passes_eq_nil_iff _ text
  have hrules : ∀ rule ∈ Catalog.standard.rules, rule.kind ∈ Kind.named ∨
      rule = .ofKind .promptMessage ∨ rule = .ofKind .modelName ∨ rule = .ofKind .engineKey := by
    decide
  have hmem : Rule.ofKind .promptMessage ∈ Catalog.standard.rules ∧
      Rule.ofKind .modelName ∈ Catalog.standard.rules ∧
      Rule.ofKind .engineKey ∈ Catalog.standard.rules := by decide
  rw [hedits]
  constructor
  · intro hnone
    exact ⟨(PromptArgument.edits_eq_nil_iff radius text).1 (hnone _ hmem.1),
      (ModelMention.edits_eq_nil_iff radius text).1 (hnone _ hmem.2.1),
      (EngineKey.edits_eq_nil_iff radius text).1 (hnone _ hmem.2.2)⟩
  · intro hsettled rule hrule
    rcases hrules rule hrule with hkind | rfl | rfl | rfl
    · exact Rule.edits_eq_nil (h rule.kind hkind)
    · exact (PromptArgument.edits_eq_nil_iff radius text).2 hsettled.prompts
    · exact (ModelMention.edits_eq_nil_iff radius text).2 hsettled.models
    · exact (EngineKey.edits_eq_nil_iff radius text).2 hsettled.engines

/-- A second run changes nothing exactly if the output of the first one is settled, and it leaves
the text as it is exactly then, too. -/
theorem Engine.run_run_iff (radius : Option Nat) (text : Text) :
    (((plain radius).run ((plain radius).run text).text).edits = [] ↔
        Settled ((plain radius).run text).text) ∧
      (((plain radius).run ((plain radius).run text).text).text = ((plain radius).run text).text ↔
        Settled ((plain radius).run text).text) := by
  have hclear := clear_run radius text
  refine ⟨hclear.edits_run_eq_nil_iff, ?_⟩
  rw [← hclear.edits_run_eq_nil_iff]
  constructor
  · intro hsame
    have hweight := weight_run_add_edits hclear
    rw [hsame] at hweight
    exact List.length_eq_zero_iff.1 (by omega)
  · exact text_run_of_edits

/-- Two long names that share a quote: the first run changes one of them, and then the other one
stands between quotes. -/
theorem Engine.run_run_shared_quote :
    ((plain none).run ((plain none).run "\"text-ada-001\"text-ada-001\"").text).edits ≠ [] ∧
      ((plain none).run ((plain none).run "\"text-ada-001\"text-ada-001\"").text).text ≠
        ((plain none).run "\"text-ada-001\"text-ada-001\"").text := by
  decide +kernel

end SdkUpgrade

import SdkUpgrade.Proofs.Callees
import SdkUpgrade.Proofs.Sites

/-!
# Texts that differ in the spelling of some words

A list of pieces stands for two texts: the one it was made from and the one it leaves. `Isolated`
says that the two differ in whole words only, each of which has no name in front of it and a
closer behind it. The relation is symmetric, `Isolated.flipped`.

Such texts look alike from outside the words. Signs stand in both or in neither (`of_signs`), a
word that is read from either text was kept as a whole or ends with a respelled one (`of_word`),
the neighbours of a place are of the same sort (`sameFront`, `sameSign`), and the same call is
open there (`enclosingCallee?_eq`).
-/

namespace SdkUpgrade

open Text Source

/-! ## The two texts of a list of pieces -/

/-- The text that the pieces were made from. -/
def sourceOf (pieces : List Piece) : Text :=
  pieces.flatMap Piece.source

/-- The text that the pieces leave. -/
def resultOf (pieces : List Piece) : Text :=
  pieces.flatMap Piece.result

section Texts

variable (pieces front back : List Piece) (text : Text) (c : Char) (found : Hit)

@[simp] theorem sourceOf_nil : sourceOf [] = [] := rfl

@[simp] theorem resultOf_nil : resultOf [] = [] := rfl

@[simp] theorem sourceOf_kept : sourceOf (.kept c :: pieces) = c :: sourceOf pieces := rfl

@[simp] theorem resultOf_kept : resultOf (.kept c :: pieces) = c :: resultOf pieces := rfl

@[simp] theorem sourceOf_hit :
    sourceOf (.hit found :: pieces) = found.matched ++ sourceOf pieces := rfl

@[simp] theorem resultOf_hit :
    resultOf (.hit found :: pieces) = found.replacement ++ resultOf pieces := rfl

@[simp] theorem sourceOf_append : sourceOf (front ++ back) = sourceOf front ++ sourceOf back :=
  List.flatMap_append

@[simp] theorem resultOf_append : resultOf (front ++ back) = resultOf front ++ resultOf back :=
  List.flatMap_append

@[simp] theorem sourceOf_map_kept : sourceOf (text.map .kept) = text := by
  induction text with
  | nil => rfl
  | cons c text ih => rw [List.map_cons, sourceOf_kept, ih]

@[simp] theorem resultOf_map_kept : resultOf (text.map .kept) = text := by
  induction text with
  | nil => rfl
  | cons c text ih => rw [List.map_cons, resultOf_kept, ih]

end Texts

/-- The same piece with its two spellings exchanged. -/
def Piece.flip : Piece → Piece
  | kept c => kept c
  | hit h => hit ⟨h.replacement, h.matched⟩

/-- The same pieces with their two texts exchanged. -/
def flipped (pieces : List Piece) : List Piece :=
  pieces.map Piece.flip

@[simp] theorem sourceOf_flipped (pieces : List Piece) :
    sourceOf (flipped pieces) = resultOf pieces := by
  induction pieces with
  | nil => rfl
  | cons piece pieces ih => cases piece <;> exact congrArg _ ih

@[simp] theorem resultOf_flipped (pieces : List Piece) :
    resultOf (flipped pieces) = sourceOf pieces := by
  induction pieces with
  | nil => rfl
  | cons piece pieces ih => cases piece <;> exact congrArg _ ih

/-! ## Words of their own -/

/-- A word that may be respelled: it has at least one character, all its characters belong to
words, and it begins and ends with a letter, a digit or an underscore. -/
def IsPlain (word : Text) : Prop :=
  word.all isTokenChar = true ∧ word.head?.any isWord = true ∧ word.getLast?.any isWord = true

instance (word : Text) : Decidable (IsPlain word) :=
  inferInstanceAs (Decidable (_ ∧ _))

section Plain

variable {word : Text}

/-- The characters of a plain word belong to words. -/
theorem IsPlain.token (h : IsPlain word) : ∀ c ∈ word, isTokenChar c = true :=
  List.all_eq_true.1 h.1

/-- A plain word is not empty. -/
theorem IsPlain.ne_nil (h : IsPlain word) : word ≠ [] := by
  rintro rfl
  exact absurd h.2.1 (by simp)

/-- A text with a plain word in front begins with no sign. -/
theorem IsPlain.head?_ne (h : IsPlain word) {c : Char} (hc : isTokenChar c = false)
    (rest : Text) :
    (word ++ rest).head? ≠ some c := by
  intro hhead
  obtain ⟨d, word, rfl⟩ := List.exists_cons_of_ne_nil h.ne_nil
  obtain rfl := Option.some.inj hhead
  rw [h.token d List.mem_cons_self] at hc
  exact absurd hc (by simp)

/-- Behind a plain word stands a character of a name. -/
theorem IsPlain.exists_last (h : IsPlain word) (before : Text) :
    ∃ c rest, isWord c = true ∧ word.reverse ++ before = c :: rest := by
  have hne : word.reverse ≠ [] := by simp [h.ne_nil]
  obtain ⟨c, rest, hr⟩ := List.exists_cons_of_ne_nil hne
  refine ⟨c, rest ++ before, ?_, by rw [hr]; rfl⟩
  have hlast := h.2.2
  rw [← List.head?_reverse, hr] at hlast
  exact hlast

/-- Two words with no word character behind them are equal if the texts are. -/
theorem word_unique {word' rest rest' : Text} (hw : ∀ c ∈ word, isTokenChar c = true)
    (hw' : ∀ c ∈ word', isTokenChar c = true) (hr : rest.head?.any isTokenChar = false)
    (hr' : rest'.head?.any isTokenChar = false) (h : word ++ rest = word' ++ rest') :
    word = word' ∧ rest = rest' := by
  have hword := congrArg (List.takeWhile isTokenChar) h
  rw [takeWhile_stretch hw hr, takeWhile_stretch hw' hr'] at hword
  subst hword
  exact ⟨rfl, List.append_cancel_left h⟩

end Plain

/-! ## Isolated words -/

/-- All hits of the pieces, which stand behind `before`, respell one of the words as another one,
no name stands in front of them and a closer follows. -/
def Isolated (words : List Text) : (before : Text) → List Piece → Prop
  | _, [] => True
  | before, .kept c :: pieces => Isolated words (c :: before) pieces
  | before, .hit h :: pieces =>
      (h.matched ∈ words ∧ h.replacement ∈ words) ∧ before.head?.any isNameChar = false ∧
        IsClosed (sourceOf pieces) ∧ Isolated words (h.matched.reverse ++ before) pieces

/-- Kept characters can be added in front. -/
theorem isolated_map_kept {words : List Text} {before : Text} {pieces : List Piece}
    (text : Text) :
    Isolated words before (text.map .kept ++ pieces) ↔
      Isolated words (text.reverse ++ before) pieces := by
  induction text generalizing before with
  | nil => rfl
  | cons c text ih =>
      rw [List.reverse_cons, List.append_assoc, List.singleton_append]
      exact ih

/-- Without a hit, nothing has to be isolated. -/
theorem isolated_kept (words : List Text) (before text : Text) :
    Isolated words before (text.map .kept) := by
  induction text generalizing before with
  | nil => trivial
  | cons c text ih => exact ih (c :: before)

namespace Isolated

variable {words : List Text} {before : Text} {pieces front back : List Piece}

/-- What stands further behind is isolated as well. -/
theorem behind (h : Isolated words before (front ++ back)) :
    Isolated words ((sourceOf front).reverse ++ before) back := by
  induction front generalizing before with
  | nil => exact h
  | cons piece front ih =>
      cases piece with
      | kept c => simpa using ih h
      | hit found => simpa using ih h.2.2.2

/-- What is respelled is one of the words. -/
theorem mem_words (h : Isolated words before pieces) {found : Hit} (hmem : .hit found ∈ pieces) :
    found.matched ∈ words := by
  obtain ⟨front, back, rfl⟩ := List.append_of_mem hmem
  exact h.behind.1.1

/-- Signs in the text were kept. -/
theorem of_signs (hw : ∀ word ∈ words, IsPlain word) (h : Isolated words before pieces)
    {signs more : Text} (hs : IsSigns signs) (htext : sourceOf pieces = signs ++ more) :
    ∃ rest, pieces = signs.map .kept ++ rest ∧ sourceOf rest = more := by
  induction signs generalizing before pieces with
  | nil => exact ⟨pieces, rfl, htext⟩
  | cons c signs ih =>
      cases pieces with
      | nil => exact absurd htext (by simp)
      | cons piece pieces =>
          cases piece with
          | kept d =>
              have hnext : Isolated words (d :: before) pieces := h
              rw [sourceOf_kept, List.cons_append] at htext
              obtain ⟨rfl, htail⟩ := List.cons.inj htext
              obtain ⟨rest, rfl, hrest⟩ := ih hnext
                (fun c hc => hs c (List.mem_cons_of_mem _ hc)) htail
              exact ⟨rest, rfl, hrest⟩
          | hit found =>
              have hhead := congrArg List.head? htext
              exact absurd hhead ((hw _ h.1.1).head?_ne (hs c List.mem_cons_self) _)

/-- A word in the text was kept, or its end was respelled. -/
theorem of_word (hw : ∀ word ∈ words, IsPlain word) (h : Isolated words before pieces)
    {word more : Text} (hword : ∀ c ∈ word, isTokenChar c = true)
    (hmore : more.head?.any isTokenChar = false) (htext : sourceOf pieces = word ++ more) :
    (∃ rest, pieces = word.map .kept ++ rest ∧ sourceOf rest = more) ∨
      ∃ first found rest, word = first ++ found.matched ∧
        pieces = first.map .kept ++ .hit found :: rest ∧ sourceOf rest = more := by
  induction word generalizing before pieces with
  | nil => exact .inl ⟨pieces, rfl, htext⟩
  | cons c word ih =>
      cases pieces with
      | nil => exact absurd htext (by simp)
      | cons piece pieces =>
          cases piece with
          | kept d =>
              have hnext : Isolated words (d :: before) pieces := h
              rw [sourceOf_kept, List.cons_append] at htext
              obtain ⟨rfl, htail⟩ := List.cons.inj htext
              rcases ih hnext (fun c hc => hword c (List.mem_cons_of_mem _ hc)) htail with
                ⟨rest, rfl, hrest⟩ | ⟨first, found, rest, rfl, rfl, hrest⟩
              · exact .inl ⟨rest, rfl, hrest⟩
              · exact .inr ⟨d :: first, found, rest, rfl, rfl, hrest⟩
          | hit found =>
              obtain ⟨hmatched, hrest⟩ :=
                word_unique (hw _ h.1.1).token hword h.2.2.1.head? hmore htext
              exact .inr ⟨[], found, pieces, hmatched.symm, rfl, hrest⟩

/-- A closer that follows in one text follows in the other. -/
theorem closed (hw : ∀ word ∈ words, IsPlain word) (h : Isolated words before pieces)
    (hclosed : IsClosed (sourceOf pieces)) : IsClosed (resultOf pieces) := by
  obtain ⟨gap, c, more, hg, hc, htext⟩ := hclosed
  have hsigns : IsSigns (gap ++ [c]) :=
    isSigns_append.2 ⟨isSigns_gap hg, isSigns_singleton (isTokenChar_of_isCloser hc)⟩
  have hsplit : sourceOf pieces = (gap ++ [c]) ++ more := by simp [htext]
  obtain ⟨rest, rfl, -⟩ := h.of_signs hw hsigns hsplit
  exact ⟨gap, c, resultOf rest, hg, hc, by simp⟩

/-- The words of one text are isolated as those of the other are. -/
theorem flipped_of (hw : ∀ word ∈ words, IsPlain word) (h : Isolated words before pieces)
    {before' : Text} (hfront : before.head?.any isNameChar = before'.head?.any isNameChar) :
    Isolated words before' (flipped pieces) := by
  induction pieces generalizing before before' with
  | nil => trivial
  | cons piece pieces ih =>
      cases piece with
      | kept c => exact ih h rfl
      | hit found =>
          obtain ⟨⟨hold, hnew⟩, hname, hclosed, hrest⟩ := h
          refine ⟨⟨hnew, hold⟩, hfront ▸ hname, ?_, ih hrest ?_⟩
          · show IsClosed (sourceOf (flipped pieces))
            rw [sourceOf_flipped]
            exact hrest.closed hw hclosed
          · obtain ⟨c, _, hc, hcons⟩ := (hw _ hold).exists_last before
            obtain ⟨d, _, hd, hcons'⟩ := (hw _ hnew).exists_last before'
            rw [hcons]
            show _ = (found.replacement.reverse ++ before').head?.any isNameChar
            rw [hcons']
            simp [isNameChar_of_isWord hc, isNameChar_of_isWord hd]

/-- The two texts of a list of pieces may be exchanged. -/
theorem flipped (hw : ∀ word ∈ words, IsPlain word) (h : Isolated words [] pieces) :
    Isolated words [] (flipped pieces) :=
  h.flipped_of hw rfl

/-! ## Corresponding places -/

/-- The characters in front of corresponding places are alike. -/
theorem sameFront (hw : ∀ word ∈ words, IsPlain word) (h : Isolated words [] (front ++ back)) :
    SameFront (sourceOf front).reverse (resultOf front).reverse := by
  rcases List.eq_nil_or_concat front with rfl | ⟨front, piece, rfl⟩
  · exact ⟨rfl, rfl⟩
  · rw [List.concat_eq_append] at h ⊢
    cases piece with
    | kept c => simp [SameFront]
    | hit found =>
        rw [List.append_assoc] at h
        obtain ⟨⟨hold, hnew⟩, -⟩ := h.behind
        obtain ⟨c, _, hc, hcons⟩ := (hw _ hold).exists_last (sourceOf front).reverse
        obtain ⟨d, _, hd, hcons'⟩ := (hw _ hnew).exists_last (resultOf front).reverse
        have hline : ∀ c, isWord c = true → (c == '\n') = false := by
          intro c hc
          rw [beq_eq_false_iff_ne]
          rintro rfl
          exact absurd hc (by decide)
        simp [SameFront, hcons, hcons', isNameChar_of_isWord hc, isNameChar_of_isWord hd,
          hline c hc, hline d hd]

/-- Behind corresponding places stands the same sign, or none in both texts. -/
theorem sameSign (hw : ∀ word ∈ words, IsPlain word) (h : Isolated words before pieces) :
    SameSign (sourceOf pieces) (resultOf pieces) := by
  intro c hc
  cases pieces with
  | nil => rfl
  | cons piece pieces =>
      cases piece with
      | kept d => rfl
      | hit found =>
          have hold := (hw _ h.1.1).head?_ne hc (sourceOf pieces)
          have hnew := (hw _ h.1.2).head?_ne hc (resultOf pieces)
          exact ⟨fun hhead => absurd hhead hold, fun hhead => absurd hhead hnew⟩

end Isolated

/-! ## The call around corresponding places -/

/-- Closers are not whitespace. -/
theorem isBlank_of_isCloser {c : Char} (h : isCloser c = true) : isBlank c = false := by
  simp only [isCloser, Bool.or_eq_true, beq_iff_eq] at h
  rcases h with (h | rfl) | rfl
  · exact isBlank_of_isQuote h
  · decide
  · decide

/-- What is neither whitespace nor part of a name ends the search for a callee. -/
theorem Source.calleeBefore?_stop {c : Char} (hblank : isBlank c = false)
    (hname : isNameChar c = false) (near far : Text) :
    calleeBefore? (near ++ c :: far) = calleeBefore? near := by
  have hrun : ∀ near far : Text, (skipBlanks (near ++ c :: far)).takeWhile isNameChar =
      (skipBlanks near).takeWhile isNameChar := by
    intro near far
    have hstop : ∀ text : Text, (text ++ c :: far).takeWhile isNameChar =
        text.takeWhile isNameChar := by
      intro text
      induction text with
      | nil => simp [hname]
      | cons d text ih => by_cases hd : isNameChar d = true <;> simp [hd, ih]
    induction near with
    | nil => simp [skipBlanks, hblank, hname]
    | cons d near ih =>
        by_cases hd : isBlank d = true
        · simpa [skipBlanks, hd] using ih
        · have hskip : ∀ rest, skipBlanks (d :: rest) = d :: rest := by
            intro rest
            simp [skipBlanks, hd]
          rw [List.cons_append, hskip, hskip]
          exact hstop (d :: near)
  have htake : (skipBlanks ((near ++ c :: far).take calleeReach)).takeWhile isNameChar =
      (skipBlanks (near.take calleeReach)).takeWhile isNameChar := by
    rw [List.take_append]
    cases calleeReach - near.length with
    | zero => rw [List.take_zero, List.append_nil]
    | succ n => exact hrun _ _
  rw [calleeBefore?, htake]
  rfl

/-- A word without parentheses opens and closes no call. -/
theorem Source.beforeParenthesis?_word {word : Text} (h : ∀ c ∈ word, isTokenChar c = true)
    (depth : Nat) (before : Text) :
    beforeParenthesis? depth (word ++ before) = beforeParenthesis? depth before := by
  induction word with
  | nil => rfl
  | cons c word ih =>
      have hc := h c List.mem_cons_self
      have hopen : c ≠ '(' := by
        rintro rfl
        exact absurd hc (by decide)
      have hclose : c ≠ ')' := by
        rintro rfl
        exact absurd hc (by decide)
      rw [List.cons_append, beforeParenthesis?.eq_def]
      simp only [hclose, hopen, if_false]
      exact ih fun d hd => h d (List.mem_cons_of_mem _ hd)

/-- Pieces are all kept, or some hit is the last one among them. -/
theorem exists_last_hit (pieces : List Piece) : (∃ text : Text, pieces = text.map .kept) ∨
    ∃ front found, ∃ text : Text, pieces = front ++ .hit found :: text.map .kept := by
  induction pieces with
  | nil => exact .inl ⟨[], rfl⟩
  | cons piece pieces ih =>
      rcases ih with ⟨text, rfl⟩ | ⟨front, found, text, rfl⟩
      · cases piece with
        | kept c => exact .inl ⟨c :: text, rfl⟩
        | hit found => exact .inr ⟨[], found, text, rfl⟩
      · exact .inr ⟨piece :: front, found, text, rfl⟩

namespace Isolated

variable {words : List Text} {front back : List Piece}

/-- The callee in front of a parenthesis is the same in both texts: a respelled word is never part
of it, since a closer stands between the two. -/
theorem calleeBefore?_eq (h : Isolated words [] (front ++ .kept '(' :: back)) :
    calleeBefore? (sourceOf front).reverse = calleeBefore? (resultOf front).reverse := by
  rcases exists_last_hit front with ⟨text, rfl⟩ | ⟨front, found, text, rfl⟩
  · rw [sourceOf_map_kept, resultOf_map_kept]
  · rw [List.append_assoc, List.cons_append] at h
    obtain ⟨-, -, ⟨gap, c, more, hg, hc, hclosed⟩, -⟩ := h.behind
    have hsplit : gap ++ c :: more = text ++ '(' :: sourceOf back := by simpa using hclosed.symm
    -- The parenthesis is neither whitespace nor a closer, so the closer stands in front of it.
    obtain ⟨near, rfl⟩ : ∃ near, text = gap ++ c :: near := by
      rcases List.append_eq_append_iff.1 hsplit with ⟨rest, hrest, hmore⟩ | ⟨rest, hrest, hmore⟩
      · cases rest with
        | nil =>
            obtain ⟨rfl, -⟩ := List.cons.inj hmore
            exact absurd hc (by decide)
        | cons d near =>
            obtain ⟨rfl, -⟩ := List.cons.inj hmore
            exact ⟨near, hrest⟩
      · cases rest with
        | nil =>
            obtain ⟨rfl, -⟩ := List.cons.inj hmore
            exact absurd hc (by decide)
        | cons d rest =>
            obtain ⟨rfl, -⟩ := List.cons.inj hmore
            have hblank := hg '(' (by simp [hrest])
            exact absurd hblank (by decide)
    have hstop := calleeBefore?_stop (isBlank_of_isCloser hc)
      (isNameChar_of_isTokenChar_eq_false (isTokenChar_of_isCloser hc)) near.reverse
    simp [hstop]

/-- The same call is open at corresponding places. -/
theorem enclosingCallee?_eq (hw : ∀ word ∈ words, IsPlain word)
    (h : Isolated words [] (front ++ back)) :
    enclosingCallee? (sourceOf front).reverse = enclosingCallee? (resultOf front).reverse := by
  -- The search goes from the place to the left, so the induction is on the pieces in front of it,
  -- the nearest first.
  have hsearch : ∀ (passed back : List Piece) (depth : Nat),
      Isolated words [] (passed.reverse ++ back) →
      (beforeParenthesis? depth (sourceOf passed.reverse).reverse).bind calleeBefore? =
        (beforeParenthesis? depth (resultOf passed.reverse).reverse).bind calleeBefore? := by
    intro passed
    induction passed with
    | nil => intros; rfl
    | cons piece passed ih =>
        intro back depth h
        rw [List.reverse_cons, List.append_assoc, List.singleton_append] at h
        have hnear := fun depth => ih (piece :: back) depth h
        cases piece with
        | hit found =>
            obtain ⟨⟨hold, hnew⟩, -⟩ := h.behind
            have htoken : ∀ word ∈ words, ∀ c ∈ word.reverse, isTokenChar c = true :=
              fun word hword c hc => (hw word hword).token c (List.mem_reverse.1 hc)
            simpa [beforeParenthesis?_word (htoken _ hold),
              beforeParenthesis?_word (htoken _ hnew)] using hnear depth
        | kept c =>
            simp only [List.reverse_cons, sourceOf_append, resultOf_append, sourceOf_kept,
              resultOf_kept, sourceOf_nil, resultOf_nil, List.reverse_append, List.reverse_nil,
              List.nil_append, List.singleton_append, beforeParenthesis?]
            by_cases hclose : c = ')'
            · simpa [hclose] using hnear (depth + 1)
            · by_cases hopen : c = '('
              · subst hopen
                cases depth with
                | zero => simpa using h.calleeBefore?_eq
                | succ depth => simpa using hnear depth
              · simpa [hclose, hopen] using hnear depth
  have hfound := hsearch front.reverse back 0 (by rwa [List.reverse_reverse])
  rw [List.reverse_reverse] at hfound
  rw [enclosingCallee?_eq_bind, enclosingCallee?_eq_bind, hfound]

end Isolated

end SdkUpgrade

import SdkUpgrade.Proofs.Respelling

/-!
# Rules that respelled words do not disturb

A kind that changes one word ignores a set of words if none of them can be mistaken for a word or
a key that the kind reads, or if each of them is as good a key as any other. Where the words of a
text are respelled, such a kind finds the same sites at corresponding places:
`Kind.site?_respelled` is the step and `Kind.respelled_induction` follows a pass over both texts
at once, skipping a piece or taking a site.

What a kind changes itself is a text with respelled words too, `Kind.isolated_respellings`. So any
two of these kinds leave each other's sites alone, by `Kind.ignores_words`.
-/

namespace SdkUpgrade

open Text Source

namespace Kind

/-! ## Words that a kind does not read -/

/-- No word ends like a word that the kind looks for, or the other way round. The same holds of
the keys that it reads, unless all the words are keys. -/
def Ignores (kind : Kind) (words : List Text) : Prop :=
  (∀ old ∈ kind.oldWords, ∀ word ∈ words, ¬ word <:+ old ∧ ¬ old <:+ word) ∧
    ∀ key ∈ kind.keys, ∀ word ∈ words,
      (word <:+ key → word = key ∧ ∀ other ∈ words, other ∈ kind.keys) ∧
        (key <:+ word → key = [] ∨ key = word)

instance (kind : Kind) (words : List Text) : Decidable (kind.Ignores words) :=
  inferInstanceAs (Decidable (_ ∧ _))

/-- The kinds that change one word ignore the words of each other. -/
theorem ignores_words : ∀ kind ∈ values, ∀ other ∈ values, kind ≠ other →
    kind.Ignores other.words := by
  decide

/-- All words that are looked for or written are plain. -/
theorem isPlain_words : ∀ kind ∈ values, ∀ word ∈ kind.words, IsPlain word := by
  decide

/-- The characters of keys belong to words. -/
theorem isTokenChar_keys : ∀ kind ∈ values, ∀ key ∈ kind.keys, key.all isTokenChar = true := by
  decide

end Kind

namespace Reading

variable {kind : Kind} {before : Text} {site : Site} {key glue ahead more : Text}

/-- The word of a site is plain. -/
theorem isPlain (reading : Reading kind before site key glue ahead more)
    (hkind : kind ∈ Kind.values) :
    IsPlain site.word :=
  Kind.isPlain_words kind hkind _ (List.mem_append_left _ reading.word_mem)

/-- The parts of a site, from the key on. -/
theorem text_append (reading : Reading kind before site key glue ahead more) (rest : Text) :
    site.text ++ rest = key ++ (glue ++ (site.word ++ (site.tail ++ rest))) := by
  simp [Site.text, reading.lead]

/-- What follows the word of a site does not continue it. -/
theorem head?_tail (reading : Reading kind before site key glue ahead more) :
    (site.tail ++ (ahead ++ more)).head?.any isTokenChar = false := by
  rw [← List.append_assoc]
  exact (reading.closed.append more).head?

/-- Only behind signs can a key stand in front of the word. -/
theorem key_eq_nil (reading : Reading kind before site key glue ahead more) (h : glue = []) :
    key = [] :=
  Decidable.byContradiction fun hne => reading.glued hne h

end Reading

/-! ## Corresponding places -/

/-- The place in the text that the pieces were made from. -/
def oldPlace (front back : List Piece) : Cursor :=
  ⟨(sourceOf front).reverse, sourceOf back⟩

/-- The place in the text that the pieces leave. -/
def newPlace (front back : List Piece) : Cursor :=
  ⟨(resultOf front).reverse, resultOf back⟩

/-- A kind finds no site at any character of a stretch. -/
def Kind.Passes (kind : Kind) (before stretch after : Text) : Prop :=
  ∀ first second, stretch = first ++ second → second ≠ [] →
    kind.site? ⟨first.reverse ++ before, second ++ after⟩ = none

namespace Kind

variable {kind : Kind} {words : List Text} {front back : List Piece}

/-- A site in one text is a site in the other: its word and its tail were kept, and its key
is a key in both texts. -/
theorem site?_respelled (hkind : kind ∈ values) (hw : ∀ word ∈ words, IsPlain word)
    (hignores : kind.Ignores words) (h : Isolated words [] (front ++ back)) {site : Site}
    (hsite : kind.site? (oldPlace front back) = some site) :
    ∃ lead rest, back = lead ++ (site.word.map .kept ++ (site.tail.map .kept ++ rest)) ∧
      site.lead = sourceOf lead ∧
      kind.site? (newPlace front back) = some ⟨resultOf lead, site.word, site.tail⟩ ∧
      ((∀ word ∈ words, word ∉ kind.keys) → sourceOf lead = resultOf lead) := by
  obtain ⟨key, glue, ahead, more, htext, reading⟩ := exists_reading hkind hsite
  have hback := htext.trans (reading.text_append _)
  -- The key was kept, or it is a respelled word as a whole, and all such words are keys.
  obtain ⟨keyPieces, back₁, rfl, hkey, hkeyNew, hkeySame, htext₁⟩ : ∃ keyPieces back₁,
      back = keyPieces ++ back₁ ∧ sourceOf keyPieces = key ∧ resultOf keyPieces ∈ kind.keys ∧
        ((∀ word ∈ words, word ∉ kind.keys) → key = resultOf keyPieces) ∧
        sourceOf back₁ = glue ++ (site.word ++ (site.tail ++ (ahead ++ more))) := by
    by_cases hnil : key = []
    · subst hnil
      exact ⟨[], back, rfl, rfl, reading.key_mem, fun _ => rfl, hback⟩
    · have hglue : (glue ++ (site.word ++ (site.tail ++ (ahead ++ more)))).head?.any isTokenChar =
          false :=
        head?_stretch (reading.glued hnil) reading.glue_signs
      have htoken := List.all_eq_true.1 (isTokenChar_keys kind hkind key reading.key_mem)
      rcases h.behind.of_word hw htoken hglue hback with
        ⟨rest, rfl, hrest⟩ | ⟨first, found, rest, hsplit, rfl, hrest⟩
      · exact ⟨_, rest, rfl, sourceOf_map_kept key, by simpa using reading.key_mem,
          fun _ => by simp, hrest⟩
      · have hfound : found.matched ∈ words ∧ found.replacement ∈ words := by
          have hhit := h.behind
          rw [isolated_map_kept] at hhit
          exact hhit.1
        obtain ⟨hsame, hall⟩ :=
          (hignores.2 key reading.key_mem _ hfound.1).1 ⟨first, hsplit.symm⟩
        obtain rfl : first = [] := by
          have hlength := congrArg List.length hsplit
          rw [← hsame, List.length_append] at hlength
          exact List.length_eq_zero_iff.1 (by omega)
        refine ⟨[.hit found], rest, rfl, by simp [hsame], ?_, ?_, hrest⟩
        · simpa using hall _ hfound.2
        · intro hnone
          exact absurd (hall _ hfound.1) (hnone _ hfound.1)
  obtain ⟨back₂, rfl, htext₂⟩ := h.behind.behind.of_signs hw reading.glue_signs htext₁
  have hword : ∃ back₃, back₂ = site.word.map .kept ++ back₃ ∧
      sourceOf back₃ = site.tail ++ (ahead ++ more) := by
    have hplain := (reading.isPlain hkind).token
    rcases h.behind.behind.behind.of_word hw hplain reading.head?_tail htext₂ with
      hkept | ⟨first, found, rest, hsplit, rfl, -⟩
    · exact hkept
    · have hhit := h.behind.behind.behind
      rw [isolated_map_kept] at hhit
      exact absurd ⟨first, hsplit.symm⟩ (hignores.1 _ reading.word_mem _ hhit.1.1).1
  obtain ⟨back₃, rfl, htext₃⟩ := hword
  rw [← List.append_assoc] at htext₃
  obtain ⟨back₄, rfl, htext₄⟩ :=
    h.behind.behind.behind.behind.of_signs hw reading.tail_signs htext₃
  refine ⟨keyPieces ++ glue.map .kept, ahead.map .kept ++ back₄, by simp,
    by simp [reading.lead, hkey], ?_, ?_⟩
  · have hsign : SameSign more (resultOf back₄) :=
      htext₄ ▸ h.behind.behind.behind.behind.behind.sameSign hw
    have hagain := reading.again hkeyNew (h.sameFront hw) hsign
    rw [newPlace]
    simpa using hagain
  · intro hnone
    rw [sourceOf_append, resultOf_append, hkey, hkeySame hnone]
    simp

/-- No site begins inside a word that is respelled. -/
theorem site?_inside_word (hkind : kind ∈ values) (hw : ∀ word ∈ words, IsPlain word)
    (hignores : kind.Ignores words) {before first second after : Text} (hfirst : first ≠ [])
    (hsecond : second ≠ []) (hword : first ++ second ∈ words)
    (hafter : after.head?.any isTokenChar = false) :
    kind.site? ⟨first.reverse ++ before, second ++ after⟩ = none := by
  cases hsite : kind.site? ⟨first.reverse ++ before, second ++ after⟩ with
  | none => rfl
  | some site =>
      exfalso
      obtain ⟨key, glue, ahead, more, htext, reading⟩ := exists_reading hkind hsite
      have hback := htext.trans (reading.text_append _)
      have htoken : ∀ c ∈ second, isTokenChar c = true :=
        fun c hc => (hw _ hword).token c (List.mem_append_right _ hc)
      -- The rest of the respelled word is the key or the word of the site.
      by_cases hglue : glue = []
      · obtain rfl := reading.key_eq_nil hglue
        subst hglue
        obtain ⟨rfl, -⟩ :=
          word_unique htoken (reading.isPlain hkind).token hafter reading.head?_tail hback
        exact (hignores.1 _ reading.word_mem _ hword).2 ⟨first, rfl⟩
      · have hsigns :
            (glue ++ (site.word ++ (site.tail ++ (ahead ++ more)))).head?.any isTokenChar =
            false :=
          head?_stretch hglue reading.glue_signs
        have hkeyToken := List.all_eq_true.1 (isTokenChar_keys kind hkind key reading.key_mem)
        obtain ⟨rfl, -⟩ := word_unique htoken hkeyToken hafter hsigns hback
        rcases (hignores.2 _ reading.key_mem _ hword).2 ⟨first, rfl⟩ with hnil | hsame
        · exact hsecond hnil
        · exact hfirst (List.self_eq_append_left.1 hsame)

/-- Without a site at a place of one text, there is none at the place of the other. -/
theorem site?_eq_none (hkind : kind ∈ values) (hw : ∀ word ∈ words, IsPlain word)
    (hignores : kind.Ignores words) (h : Isolated words [] (front ++ back))
    (hnone : kind.site? (oldPlace front back) = none) :
    kind.site? (newPlace front back) = none := by
  cases hsite : kind.site? (newPlace front back) with
  | none => rfl
  | some site =>
      -- Read the other way round, the pieces carry the site back.
      have hflip : Isolated words [] (flipped front ++ flipped back) := by
        have hall := h.flipped hw
        rwa [flipped, List.map_append] at hall
      have hold : kind.site? (oldPlace (flipped front) (flipped back)) = some site := by
        simpa [oldPlace, newPlace] using hsite
      obtain ⟨lead, rest, -, -, hfound, -⟩ := site?_respelled hkind hw hignores hflip hold
      have hplace : newPlace (flipped front) (flipped back) = oldPlace front back := by
        simp [oldPlace, newPlace]
      rw [hplace, hnone] at hfound
      exact absurd hfound (by simp)

/-- Where no site begins at a piece, none begins inside it. -/
theorem passes_piece (hkind : kind ∈ values) (hw : ∀ word ∈ words, IsPlain word)
    (hignores : kind.Ignores words) {before : Text} {piece : Piece} {pieces : List Piece}
    (h : Isolated words before (piece :: pieces))
    (hnone : kind.site? ⟨before, sourceOf (piece :: pieces)⟩ = none) :
    kind.Passes before piece.source (sourceOf pieces) := by
  intro first second hsplit hsecond
  by_cases hfirst : first = []
  · subst hfirst
    rw [List.nil_append] at hsplit
    subst hsplit
    exact hnone
  · cases piece with
    | kept c =>
        exfalso
        have hlength := congrArg List.length hsplit
        have hpos := List.length_pos_iff.2 hfirst
        have hpos' := List.length_pos_iff.2 hsecond
        simp only [Piece.source, List.length_singleton, List.length_append] at hlength
        omega
    | hit found =>
        have hword : first ++ second ∈ words := hsplit ▸ h.1.1
        exact site?_inside_word hkind hw hignores hfirst hsecond hword h.2.2.1.head?

/-- Induction along a pass over two texts at once that differ in the spelling of words which the
kind ignores: at the end of both, at a piece that the kind passes over in both, and at a site. -/
theorem respelled_induction (hkind : kind ∈ values) (hw : ∀ word ∈ words, IsPlain word)
    (hignores : kind.Ignores words) {pieces : List Piece} (h : Isolated words [] pieces)
    {motive : List Piece → List Piece → Prop} (nil : motive pieces [])
    (skip : ∀ front piece back, pieces = front ++ piece :: back →
      kind.Passes (sourceOf front).reverse piece.source (sourceOf back) →
      kind.Passes (resultOf front).reverse piece.result (resultOf back) →
      motive (front ++ [piece]) back → motive front (piece :: back))
    (site : ∀ front lead (word tail : Text) rest,
      pieces = front ++ (lead ++ (word.map .kept ++ (tail.map .kept ++ rest))) →
      kind.site? ⟨(sourceOf front).reverse, sourceOf lead ++ (word ++ (tail ++ sourceOf rest))⟩ =
        some ⟨sourceOf lead, word, tail⟩ →
      kind.site? ⟨(resultOf front).reverse, resultOf lead ++ (word ++ (tail ++ resultOf rest))⟩ =
        some ⟨resultOf lead, word, tail⟩ →
      ((∀ word ∈ words, word ∉ kind.keys) → sourceOf lead = resultOf lead) →
      motive (front ++ (lead ++ (word.map .kept ++ tail.map .kept))) rest →
      motive front (lead ++ (word.map .kept ++ (tail.map .kept ++ rest))))
    (front back : List Piece) (hpieces : pieces = front ++ back) : motive front back := by
  induction hn : back.length using Nat.strongRecOn generalizing front back with
  | _ n ih =>
      have hplaces : Isolated words [] (front ++ back) := hpieces ▸ h
      cases hsite : kind.site? (oldPlace front back) with
      | some found =>
          obtain ⟨lead, rest, rfl, hlead, hnew, hsame⟩ :=
            site?_respelled hkind hw hignores hplaces hsite
          obtain ⟨leadText, word, tail⟩ := found
          obtain rfl : leadText = sourceOf lead := hlead
          have hword : 0 < word.length := by
            obtain ⟨_, _, _, _, _, reading⟩ := exists_reading hkind hsite
            exact List.length_pos_iff.2 (reading.isPlain hkind).ne_nil
          refine site front lead word tail rest hpieces (by simpa [oldPlace] using hsite)
            (by simpa [newPlace] using hnew) hsame (ih rest.length ?_ _ rest ?_ rfl)
          · simp only [List.length_append, List.length_map] at hn
            omega
          · simp [hpieces]
      | none =>
          cases back with
          | nil =>
              rw [List.append_nil] at hpieces
              subst hpieces
              exact nil
          | cons piece back =>
              have hnew := site?_eq_none hkind hw hignores hplaces hsite
              have hbehind : Isolated words (sourceOf front).reverse (piece :: back) := by
                simpa using hplaces.behind
              have hflip : Isolated words (resultOf front).reverse (flipped (piece :: back)) :=
                hbehind.flipped_of hw (hplaces.sameFront hw).1
              refine skip front piece back hpieces
                (passes_piece hkind hw hignores hbehind hsite) ?_
                  (ih back.length ?_ _ back ?_ rfl)
              · have hpass := passes_piece hkind hw hignores hflip (by
                  show kind.site? ⟨_, sourceOf (flipped (piece :: back))⟩ = none
                  rw [sourceOf_flipped]
                  exact hnew)
                have hresult : piece.flip.source = piece.result := by cases piece <;> rfl
                have hrest : sourceOf (back.map Piece.flip) = resultOf back :=
                  sourceOf_flipped back
                rwa [hresult, hrest] at hpass
              · rw [← hn, List.length_cons]
                omega
              · simp [hpieces]

/-! ## Passes from site to site -/

/-- A site has at least one character. -/
theorem text_ne_nil_of_site? (hkind : kind ∈ values) {c : Cursor} {site : Site}
    (h : kind.site? c = some site) : site.text ≠ [] := by
  obtain ⟨_, _, _, _, _, reading⟩ := exists_reading hkind h
  simp [Site.text, (reading.isPlain hkind).ne_nil]

/-- A stretch without sites begins with no site, and its rest is one too. -/
theorem Passes.uncons {before stretch after : Text} {c : Char}
    (h : kind.Passes before (c :: stretch) after) :
    kind.site? ⟨before, c :: (stretch ++ after)⟩ = none ∧
      kind.Passes (c :: before) stretch after := by
  refine ⟨h [] (c :: stretch) rfl (List.cons_ne_nil c stretch), fun first second hsplit hne => ?_⟩
  have hnone := h (c :: first) second (by rw [hsplit]; rfl) hne
  rwa [List.reverse_cons, List.append_assoc, List.singleton_append] at hnone

/-- A pass keeps a stretch without sites. -/
theorem pieces_passes (hkind : kind ∈ values) (radius : Option Nat) {before stretch after : Text}
    (h : kind.Passes before stretch after) :
    pieces (kind.hit? radius) 0 before (stretch ++ after) =
      stretch.map .kept ++ pieces (kind.hit? radius) 0 (stretch.reverse ++ before) after := by
  refine pieces_stretch fun first second hsplit hne => ?_
  rw [hit?_eq_map_site hkind, h first second hsplit hne]
  rfl

/-- A pass takes a site as one piece. -/
theorem pieces_site (hkind : kind ∈ values) (radius : Option Nat) {before rest : Text}
    {site : Site} (h : kind.site? ⟨before, site.text ++ rest⟩ = some site) :
    pieces (kind.hit? radius) 0 before (site.text ++ rest) =
      .hit (site.hit (kind.newWord radius ⟨before, site.text ++ rest⟩ site)) ::
        pieces (kind.hit? radius) 0 (site.text.reverse ++ before) rest := by
  have hhit : kind.hit? radius ⟨before, site.text ++ rest⟩ =
      some (site.hit (kind.newWord radius ⟨before, site.text ++ rest⟩ site)) := by
    rw [hit?_eq_map_site hkind, h]
    rfl
  generalize kind.newWord radius ⟨before, site.text ++ rest⟩ site = new at hhit
  exact @pieces_hit _ (kind.recognises_hit? radius) before rest (site.hit new) hhit

/-- A stretch without sites is written as it is. -/
theorem rewritten_passes (hkind : kind ∈ values) (radius : Option Nat)
    {before stretch after : Text} (h : kind.Passes before stretch after) :
    rewritten (kind.hit? radius) before (stretch ++ after) =
      stretch ++ rewritten (kind.hit? radius) (stretch.reverse ++ before) after := by
  have hpieces := congrArg resultOf (pieces_passes hkind radius h)
  rwa [resultOf_append, resultOf_map_kept] at hpieces

/-- Of a site, the word is written with its new spelling. -/
theorem rewritten_site (hkind : kind ∈ values) (radius : Option Nat) {before rest : Text}
    {site : Site} (h : kind.site? ⟨before, site.text ++ rest⟩ = some site) :
    rewritten (kind.hit? radius) before (site.text ++ rest) =
      site.lead ++ (kind.newWord radius ⟨before, site.text ++ rest⟩ site ++ (site.tail ++
        rewritten (kind.hit? radius) (site.text.reverse ++ before) rest)) := by
  rw [rewritten, pieces_site hkind radius h]
  simp [Site.hit, Piece.result, rewritten]

/-- Induction along a pass: at the end of the text, at a character where no site begins, and at a
site. -/
theorem site_induction (hkind : kind ∈ values) {motive : Text → Text → Prop}
    (nil : ∀ before, motive before [])
    (kept : ∀ before c after, kind.site? ⟨before, c :: after⟩ = none →
      motive (c :: before) after → motive before (c :: after))
    (site : ∀ before (site : Site) rest, kind.site? ⟨before, site.text ++ rest⟩ = some site →
      motive (site.text.reverse ++ before) rest → motive before (site.text ++ rest))
    (before after : Text) : motive before after := by
  induction before, after using pass_induction (kind.recognises_hit? none) with
  | nil before => exact nil before
  | kept before c after hnone ih =>
      rw [hit?_eq_map_site hkind, Option.map_eq_none_iff] at hnone
      exact kept before c after hnone ih
  | hit before found rest hfound ih =>
      rw [hit?_eq_map_site hkind] at hfound
      obtain ⟨taken, htaken, heq⟩ := Option.map_eq_some_iff.1 hfound
      have hmatched : found.matched = taken.text := congrArg Hit.matched heq.symm
      rw [hmatched] at htaken ih ⊢
      exact site before taken rest htaken ih

/-- The pieces of a text in which a kind respells its words. The first number counts the
characters that the last site still covers. -/
def respellings (kind : Kind) (radius : Option Nat) : Nat → (before after : Text) → List Piece
  | _, _, [] => []
  | covered + 1, before, c :: after => respellings kind radius covered (c :: before) after
  | 0, before, c :: after =>
      match kind.site? ⟨before, c :: after⟩ with
      | none => .kept c :: respellings kind radius 0 (c :: before) after
      | some site =>
          site.pieces (kind.newWord radius ⟨before, c :: after⟩ site) ++
            respellings kind radius (site.text.length - 1) (c :: before) after

/-- Characters that a site covers belong to no further piece. -/
theorem respellings_covered (kind : Kind) (radius : Option Nat) (covered before after : Text) :
    kind.respellings radius covered.length before (covered ++ after) =
      kind.respellings radius 0 (covered.reverse ++ before) after := by
  induction covered generalizing before with
  | nil => rfl
  | cons c covered ih =>
      show kind.respellings radius covered.length (c :: before) (covered ++ after) = _
      rw [ih (c :: before)]
      simp

/-- A stretch without sites is kept. -/
theorem respellings_passes (radius : Option Nat) {before stretch after : Text}
    (h : kind.Passes before stretch after) :
    kind.respellings radius 0 before (stretch ++ after) =
      stretch.map .kept ++ kind.respellings radius 0 (stretch.reverse ++ before) after := by
  induction stretch generalizing before with
  | nil => rfl
  | cons c stretch ih =>
      obtain ⟨hsite, hrest⟩ := h.uncons
      rw [List.cons_append, respellings, hsite]
      simp [ih hrest]

/-- At a site, the word gets its new spelling. -/
theorem respellings_site (hkind : kind ∈ values) (radius : Option Nat) {before rest : Text}
    {site : Site} (h : kind.site? ⟨before, site.text ++ rest⟩ = some site) :
    kind.respellings radius 0 before (site.text ++ rest) =
      site.pieces (kind.newWord radius ⟨before, site.text ++ rest⟩ site) ++
        kind.respellings radius 0 (site.text.reverse ++ before) rest := by
  obtain ⟨c, text, htext⟩ := List.exists_cons_of_ne_nil (text_ne_nil_of_site? hkind h)
  have hcover := respellings_covered kind radius text (c :: before) rest
  rw [htext, List.cons_append] at h ⊢
  rw [respellings, h]
  simp [htext, hcover]

/-- The respelled pieces make up the text. -/
theorem sourceOf_respellings (hkind : kind ∈ values) (radius : Option Nat) (before after : Text) :
    sourceOf (kind.respellings radius 0 before after) = after := by
  induction before, after using site_induction hkind with
  | nil before => rfl
  | kept before c after hnone ih =>
      rw [respellings, hnone]
      simp [ih]
  | site before site rest hsite ih =>
      rw [respellings_site hkind radius hsite, sourceOf_append, ih]
      simp [Site.pieces, Site.text]

/-- The respelled pieces leave what the pass writes. -/
theorem resultOf_respellings (hkind : kind ∈ values) (radius : Option Nat) (before after : Text) :
    resultOf (kind.respellings radius 0 before after) =
      rewritten (kind.hit? radius) before after := by
  induction before, after using site_induction hkind with
  | nil before => rfl
  | kept before c after hnone ih =>
      have hhit : kind.hit? radius ⟨before, c :: after⟩ = none := by
        rw [hit?_eq_map_site hkind, hnone]
        rfl
      rw [respellings, hnone, rewritten_kept hhit, ← ih]
      rfl
  | site before site rest hsite ih =>
      rw [respellings_site hkind radius hsite, rewritten_site hkind radius hsite, ← ih]
      simp [Site.pieces]

/-- What a kind respells are isolated words. -/
theorem isolated_respellings (hkind : kind ∈ values) (radius : Option Nat) (before after : Text) :
    Isolated kind.words before (kind.respellings radius 0 before after) := by
  induction before, after using site_induction hkind with
  | nil before => trivial
  | kept before c after hnone ih =>
      rw [respellings, hnone]
      exact ih
  | site before site rest hsite ih =>
      obtain ⟨key, glue, ahead, more, htext, reading⟩ := exists_reading hkind hsite
      have hrest : rest = ahead ++ more := List.append_cancel_left htext
      rw [respellings_site hkind radius hsite, Site.pieces, List.append_assoc, isolated_map_kept]
      refine ⟨⟨?_, ?_⟩, ?_, ?_, ?_⟩
      · exact List.mem_append_left _ reading.word_mem
      · exact List.mem_append_right _ (newWord_mem hkind _ _ _)
      · -- Signs stand in front of the word, or the site begins with it.
        by_cases hglue : glue = []
        · rw [reading.lead, hglue, reading.key_eq_nil hglue]
          exact reading.front hglue
        · rw [reading.lead, List.reverse_append, List.append_assoc]
          refine head?_stretch (by simp [hglue]) fun c hc => ?_
          exact isNameChar_of_isTokenChar_eq_false (reading.glue_signs c (List.mem_reverse.1 hc))
      · have hclosed := reading.closed.append more
        rw [List.append_assoc, ← hrest] at hclosed
        simpa [sourceOf_respellings hkind] using hclosed
      · refine (isolated_map_kept site.tail).2 ?_
        simpa [Site.text] using ih

/-! ## New words at corresponding places -/

/-- The new name of an engine key or a token limit is the same at corresponding
places, whatever the radius. -/
theorem newWord_respelled (hkind : kind = tokenLimit ∨ kind = engineKey)
    (hw : ∀ word ∈ words, IsPlain word) (radius radius' : Option Nat) {lead : List Piece}
    (h : Isolated words [] (front ++ (lead ++ back))) (after after' word tail : Text) :
    kind.newWord radius ⟨(sourceOf front).reverse, after⟩ ⟨sourceOf lead, word, tail⟩ =
      kind.newWord radius' ⟨(resultOf front).reverse, after'⟩ ⟨resultOf lead, word, tail⟩ := by
  rcases hkind with rfl | rfl
  · rfl
  · rw [← List.append_assoc] at h
    have hcallee := h.enclosingCallee?_eq hw
    rw [sourceOf_append, resultOf_append, List.reverse_append, List.reverse_append] at hcallee
    show EngineKey.nameAt _ _ = EngineKey.nameAt _ _
    unfold EngineKey.nameAt
    rw [hcallee]

end Kind

end SdkUpgrade

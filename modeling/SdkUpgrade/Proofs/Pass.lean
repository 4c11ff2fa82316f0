import SdkUpgrade.Text.Cursor

/-!
# What a pass writes

A pass reads a text from left to right and writes another one. `Reaches` follows it from place to
place: what was written so far, what was read, and what is still to be read. Two facts about whole
passes carry everything that is said of particular rules later.

`located` says where a place of the written text comes from: either the pass stood at a place of
the text that it read and kept the next character, or the place lies inside a replacement.
`prefix_rewritten` says where a stretch at the beginning of what a pass writes comes from: either
all of it was kept, or the pass took a hit inside it.
-/

namespace SdkUpgrade

variable {find? : Cursor → Option Hit}

/-- The recogniser answers at no place of the text. -/
def Absent (find? : Cursor → Option Hit) (text : Text) : Prop :=
  ∀ c : Cursor, c.source = text → find? c = none

/-- What a pass writes from a place on. -/
def rewritten (find? : Cursor → Option Hit) (before after : Text) : Text :=
  (pieces find? 0 before after).flatMap Piece.result

/-- A pass goes over the characters that a hit covers without writing anything. -/
theorem pieces_covered (find? : Cursor → Option Hit) (covered before after : Text) :
    pieces find? covered.length before (covered ++ after) =
      pieces find? 0 (covered.reverse ++ before) after := by
  induction covered generalizing before with
  | nil => rfl
  | cons c covered ih =>
      show pieces find? covered.length (c :: before) (covered ++ after) = _
      rw [ih (c :: before)]
      simp

/-- A pass keeps a stretch at none of whose characters something is recognised. -/
theorem pieces_stretch {before stretch after : Text}
    (h : ∀ first second, stretch = first ++ second → second ≠ [] →
      find? ⟨first.reverse ++ before, second ++ after⟩ = none) :
    pieces find? 0 before (stretch ++ after) =
      stretch.map .kept ++ pieces find? 0 (stretch.reverse ++ before) after := by
  induction stretch generalizing before with
  | nil => rfl
  | cons c stretch ih =>
      have hnone : find? ⟨before, c :: (stretch ++ after)⟩ = none :=
        h [] (c :: stretch) rfl (List.cons_ne_nil c stretch)
      have hrest : ∀ first second, stretch = first ++ second → second ≠ [] →
          find? ⟨first.reverse ++ c :: before, second ++ after⟩ = none := by
        intro first second hsplit hne
        simpa using h (c :: first) second (by rw [hsplit]; rfl) hne
      rw [List.cons_append, pieces, hnone]
      simp [ih hrest]

@[simp] theorem rewritten_nil (find? : Cursor → Option Hit) (before : Text) :
    rewritten find? before [] = [] :=
  rfl

/-- Kept characters are written as they are. -/
theorem flatMap_result_map_kept (text : Text) :
    (text.map Piece.kept).flatMap Piece.result = text := by
  induction text with
  | nil => rfl
  | cons c text ih => exact congrArg (c :: ·) ih

/-- A stretch at none of whose characters something is recognised is written as it is. -/
theorem rewritten_stretch {before stretch after : Text}
    (h : ∀ first second, stretch = first ++ second → second ≠ [] →
      find? ⟨first.reverse ++ before, second ++ after⟩ = none) :
    rewritten find? before (stretch ++ after) =
      stretch ++ rewritten find? (stretch.reverse ++ before) after := by
  rw [rewritten, pieces_stretch h, List.flatMap_append, flatMap_result_map_kept]
  rfl

/-- Where nothing is recognised, the next character is written as it is. -/
theorem rewritten_kept {before after : Text} {c : Char} (h : find? ⟨before, c :: after⟩ = none) :
    rewritten find? before (c :: after) = c :: rewritten find? (c :: before) after := by
  simp [rewritten, pieces, h, Piece.result]

/-- Where something is recognised, it is one piece and the pass goes on behind it. -/
theorem pieces_hit (hf : Recognises find?) {before rest : Text} {hit : Hit}
    (h : find? ⟨before, hit.matched ++ rest⟩ = some hit) :
    pieces find? 0 before (hit.matched ++ rest) =
      .hit hit :: pieces find? 0 (hit.matched.reverse ++ before) rest := by
  obtain ⟨hne, -⟩ := hf _ _ h
  obtain ⟨c, matched, hm⟩ := List.exists_cons_of_ne_nil hne
  have hcover := pieces_covered find? matched (c :: before) rest
  rw [hm, List.cons_append] at h ⊢
  simp [pieces, h, hm, hcover]

/-- Where something is recognised, its replacement is written and the pass goes on behind it. -/
theorem rewritten_hit (hf : Recognises find?) {before rest : Text} {hit : Hit}
    (h : find? ⟨before, hit.matched ++ rest⟩ = some hit) :
    rewritten find? before (hit.matched ++ rest) =
      hit.replacement ++ rewritten find? (hit.matched.reverse ++ before) rest := by
  rw [rewritten, pieces_hit hf h]
  rfl

/-- Induction along a pass: at the end of the text, at a character that is kept, and at a hit. -/
theorem pass_induction (hf : Recognises find?) {motive : Text → Text → Prop}
    (nil : ∀ before, motive before [])
    (kept : ∀ before c after, find? ⟨before, c :: after⟩ = none →
      motive (c :: before) after → motive before (c :: after))
    (hit : ∀ before (hit : Hit) rest, find? ⟨before, hit.matched ++ rest⟩ = some hit →
      motive (hit.matched.reverse ++ before) rest → motive before (hit.matched ++ rest))
    (before after : Text) : motive before after := by
  induction hn : after.length using Nat.strongRecOn generalizing before after with
  | _ n ih =>
      cases after with
      | nil => exact nil before
      | cons c after =>
          cases hh : find? ⟨before, c :: after⟩ with
          | none => exact kept before c after hh (ih after.length (by simp at hn; omega) _ _ rfl)
          | some found =>
              obtain ⟨hne, rest, hrest⟩ := hf _ _ hh
              change found.matched ++ rest = c :: after at hrest
              have hpos := List.length_pos_iff.2 hne
              have hlen : rest.length < n := by
                have htotal := congrArg List.length hrest
                simp only [List.length_append, List.length_cons] at htotal hn
                omega
              rw [← hrest] at hh ⊢
              exact hit before found rest hh (ih rest.length hlen _ _ rfl)

/-- What each replacement keeps, wherever it stands, is kept by a pass. The text in front of the
place may be another one already. -/
theorem keeps_rewritten (hf : Recognises find?) {P : Text → Prop}
    (hstep : ∀ {c : Cursor} {hit : Hit}, find? c = some hit → ∀ front rest,
      P (front ++ (hit.matched ++ rest)) → P (front ++ (hit.replacement ++ rest)))
    (before after : Text) : ∀ seen : Text,
      P (seen ++ after) → P (seen ++ rewritten find? before after) := by
  induction before, after using pass_induction hf with
  | nil before => exact fun seen h => h
  | kept before c after hc ih =>
      intro seen h
      have hnext := ih (seen ++ [c]) (by simpa using h)
      rw [rewritten_kept hc]
      simpa using hnext
  | hit before hit rest hh ih =>
      intro seen h
      have hnext := ih (seen ++ hit.replacement) (by simpa using hstep hh seen rest h)
      rw [rewritten_hit hf hh]
      simpa using hnext

/-! ## The places of a pass -/

/-- The pass over `text` comes to the place between `before` and `after`, having written `seen`,
the nearest character first. -/
inductive Reaches (find? : Cursor → Option Hit) (text : Text) :
    (seen before after : Text) → Prop where
  | start : Reaches find? text [] [] text
  | kept {seen before after : Text} {c : Char} :
      Reaches find? text seen before (c :: after) → find? ⟨before, c :: after⟩ = none →
      Reaches find? text (c :: seen) (c :: before) after
  | hit {seen before rest : Text} {hit : Hit} :
      Reaches find? text seen before (hit.matched ++ rest) →
      find? ⟨before, hit.matched ++ rest⟩ = some hit →
      Reaches find? text (hit.replacement.reverse ++ seen) (hit.matched.reverse ++ before) rest

/-- The place that a pass has reached is a place of its text. -/
theorem Reaches.source_eq {text seen before after : Text}
    (h : Reaches find? text seen before after) : before.reverse ++ after = text := by
  induction h with
  | start => rfl
  | kept _ _ ih => simpa using ih
  | hit _ _ ih => simpa using ih

/-- What a pass has written and what it writes from there on make up all it writes. -/
theorem Reaches.rewritten_eq (hf : Recognises find?) {text seen before after : Text}
    (h : Reaches find? text seen before after) :
    rewritten find? [] text = seen.reverse ++ rewritten find? before after := by
  induction h with
  | start => rfl
  | kept _ hnone ih =>
      rw [ih, rewritten_kept hnone]
      simp
  | hit _ hfound ih =>
      rw [ih, rewritten_hit hf hfound]
      simp

/-- Where a place of the written text comes from. -/
inductive Located (find? : Cursor → Option Hit) (text : Text) : Cursor → Prop where
  /-- The pass stands there and keeps the next character, if there is one. -/
  | kept {seen before after : Text} : Reaches find? text seen before after →
      (after ≠ [] → find? ⟨before, after⟩ = none) →
      Located find? text ⟨seen, rewritten find? before after⟩
  /-- The place is in front of a character of a replacement. -/
  | inside {seen before rest first second : Text} {hit : Hit} :
      Reaches find? text seen before (hit.matched ++ rest) →
      find? ⟨before, hit.matched ++ rest⟩ = some hit →
      hit.replacement = first ++ second → second ≠ [] →
      Located find? text ⟨first.reverse ++ seen,
        second ++ rewritten find? (hit.matched.reverse ++ before) rest⟩

/-- Every place of what a pass writes from a reached place on is located. -/
theorem located_of_reaches (hf : Recognises find?) {text : Text} (before after : Text) :
    ∀ {seen left right : Text}, Reaches find? text seen before after →
      rewritten find? before after = left ++ right →
      Located find? text ⟨left.reverse ++ seen, right⟩ := by
  induction before, after using pass_induction hf with
  | nil before =>
      intro seen left right hr hsplit
      obtain ⟨rfl, rfl⟩ := List.append_eq_nil_iff.1 hsplit.symm
      exact .kept hr (fun hne => absurd rfl hne)
  | kept before c after hc ih =>
      intro seen left right hr hsplit
      rw [rewritten_kept hc] at hsplit
      cases left with
      | nil =>
          rw [List.nil_append] at hsplit
          rw [← hsplit, ← rewritten_kept hc]
          exact .kept hr (fun _ => hc)
      | cons d left =>
          obtain ⟨rfl, hrest⟩ := List.cons.inj hsplit
          simpa using ih (.kept hr hc) hrest
  | hit before hit rest hh ih =>
      intro seen left right hr hsplit
      rw [rewritten_hit hf hh] at hsplit
      -- The place lies behind the replacement, or in front of one of its characters.
      rcases List.append_eq_append_iff.1 hsplit with ⟨more, rfl, hmore⟩ | ⟨second, hsecond, rfl⟩
      · simpa using ih (.hit hr hh) hmore
      · cases second with
        | nil =>
            have hleft : left = hit.replacement := by simpa using hsecond.symm
            subst hleft
            have hplace := @ih _ [] (rewritten find? _ rest) (.hit hr hh) rfl
            simpa using hplace
        | cons d second => exact .inside hr hh hsecond (by simp)

/-- Every place of what a pass writes is located. -/
theorem located (hf : Recognises find?) {text : Text} {c : Cursor}
    (h : c.source = rewritten find? [] text) : Located find? text c := by
  have hplace := located_of_reaches hf [] text .start (h.symm.trans rfl)
  simpa using hplace

/-! ## Stretches of what a pass writes -/

/-- A stretch at the beginning of what a pass writes was kept as a whole, or the pass took a hit
inside it. -/
theorem prefix_rewritten (hf : Recognises find?) (before after : Text) :
    ∀ {stretch : Text}, stretch <+: rewritten find? before after →
      (∃ rest, after = stretch ++ rest ∧ rewritten find? before after =
        stretch ++ rewritten find? (stretch.reverse ++ before) rest) ∨
      ∃ first second rest, ∃ hit : Hit, stretch = first ++ second ∧ second ≠ [] ∧
        after = first ++ (hit.matched ++ rest) ∧
        find? ⟨first.reverse ++ before, hit.matched ++ rest⟩ = some hit ∧
        second <+: hit.replacement ++
          rewritten find? (hit.matched.reverse ++ (first.reverse ++ before)) rest := by
  induction before, after using pass_induction hf with
  | nil before =>
      intro stretch h
      rw [rewritten_nil, List.prefix_nil] at h
      subst h
      exact .inl ⟨[], rfl, rfl⟩
  | kept before c after hc ih =>
      intro stretch h
      rw [rewritten_kept hc] at h ⊢
      cases stretch with
      | nil => exact .inl ⟨c :: after, rfl, (rewritten_kept hc).symm⟩
      | cons d stretch =>
          obtain ⟨rfl, h⟩ := List.cons_prefix_cons.1 h
          rcases ih h with ⟨rest, rfl, hrest⟩ | ⟨first, second, rest, hit, rfl, hne, rfl, hh, hp⟩
          · exact .inl ⟨rest, rfl, by simpa using hrest⟩
          · exact .inr ⟨d :: first, second, rest, hit, rfl, hne, rfl, by simpa using hh,
              by simpa using hp⟩
  | hit before hit rest hh ih =>
      intro stretch h
      cases stretch with
      | nil => exact .inl ⟨hit.matched ++ rest, rfl, rfl⟩
      | cons d stretch =>
          rw [rewritten_hit hf hh] at h
          exact .inr ⟨[], d :: stretch, rest, hit, rfl, by simp, rfl, hh, h⟩

end SdkUpgrade

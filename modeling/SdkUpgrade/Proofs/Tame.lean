import SdkUpgrade.Proofs.Pass
import SdkUpgrade.Proofs.Trailers

/-!
# Passes that keep names and trailers apart

A recogniser is tame if its replacements cannot be mistaken for parts of names or trailers. Then a
name that the pass keeps is a name of the text that it read, `dottedName?_rewritten`, and a
trailer that follows it in the written text followed it before, `follows_of_rewritten`. What a
second recogniser of names and trailers finds in the written text is hence something that it would
have found before, or it begins inside a replacement: `absent_rewritten`.
-/

namespace SdkUpgrade

open Text Source

/-- The hits of the recogniser stand apart from names and trailers. Their replacements begin as
`Opening` says. Behind a name character neither the characters taken nor those written begin
with one. A parenthesis or quote at the beginning of the replacement was there before, no equals
sign is taken first, and a replacement that does not end in a name character replaces what does
not end in one either. -/
structure Tame (find? : Cursor → Option Hit) : Prop where
  recognises : Recognises find?
  opening : ∀ {before rest : Text} {hit : Hit},
    find? ⟨before, hit.matched ++ rest⟩ = some hit →
    Opening (hit.replacement ++ rewritten find? (hit.matched.reverse ++ before) rest)
  nonempty : ∀ {c : Cursor} {hit : Hit}, find? c = some hit → hit.replacement ≠ []
  inner : ∀ {c : Cursor} {hit : Hit}, find? c = some hit → c.follows isNameChar = true →
    hit.matched.head?.any isNameChar = false ∧ hit.replacement.head?.any isNameChar = false
  sameHead : ∀ {c : Cursor} {hit : Hit} {d : Char}, find? c = some hit →
    hit.replacement.head? = some d → d = '(' ∨ isQuote d = true → hit.matched.head? = some d
  notEquals : ∀ {c : Cursor} {hit : Hit}, find? c = some hit → hit.matched.head? ≠ some '='
  last : ∀ {c : Cursor} {hit : Hit}, find? c = some hit →
    hit.replacement.getLast?.any isNameChar = false → hit.matched.getLast?.any isNameChar = false

variable {find? : Cursor → Option Hit}

/-- The first character of a text in front of another one. -/
theorem head?_append_any {p : Char → Bool} {first second : Text} (h : first ≠ []) :
    (first ++ second).head?.any p = first.head?.any p := by
  obtain ⟨c, first, rfl⟩ := List.exists_cons_of_ne_nil h
  rfl

/-- The last character of a text behind another one. -/
theorem getLast?_append_ne_nil {first last : Text} (h : last ≠ []) :
    (first ++ last).getLast? = last.getLast? := by
  rw [List.getLast?_append, List.getLast?_eq_some_getLast h]
  rfl

/-- The last character of a text, read backwards. -/
theorem head?_reverse_append_any {p : Char → Bool} {last before : Text} (h : last ≠ []) :
    (last.reverse ++ before).head?.any p = last.getLast?.any p := by
  rw [head?_append_any (by simpa using h), List.head?_reverse]

/-- A name character stands in front of the place behind a name. -/
theorem head?_reverse_name {name : Text} (hne : name ≠ []) (h : ∀ c ∈ name, isNameChar c = true)
    (before : Text) : (name.reverse ++ before).head?.any isNameChar = true := by
  rw [head?_reverse_append_any hne, List.getLast?_eq_some_getLast hne]
  exact h _ (List.getLast_mem hne)

/-- The character in front of a place behind a stretch. -/
theorem head?_reverse_append_eq {stretch before : Text}
    (hb : before.head?.any isNameChar = true) :
    (stretch.reverse ++ before).head?.any isNameChar = endsInName true stretch := by
  cases hs : stretch.getLast? with
  | none =>
      obtain rfl := List.getLast?_eq_none_iff.1 hs
      simpa [endsInName] using hb
  | some c => simp [endsInName, hs, List.head?_append, List.head?_reverse]

namespace Tame

/-- Where a name character stands in front of what the pass wrote, one stands in front of what it
read, if the other way round none does. -/
theorem edge (ht : Tame find?) {text seen before after : Text}
    (h : Reaches find? text seen before after) (hs : seen.head?.any isNameChar = false) :
    before.head?.any isNameChar = false := by
  cases h with
  | start => rfl
  | kept => exact hs
  | hit hr hh =>
      rw [head?_reverse_append_any (ht.nonempty hh)] at hs
      rw [head?_reverse_append_any (ht.recognises _ _ hh).1]
      exact ht.last hh hs

/-! ## Names -/

/-- Behind a name character, the pass keeps the name characters that follow. -/
theorem names_rewritten (ht : Tame find?) (before after : Text)
    (hb : before.head?.any isNameChar = true) :
    (rewritten find? before after).takeWhile isNameChar = after.takeWhile isNameChar ∧
      (rewritten find? before after).dropWhile isNameChar =
        rewritten find? ((after.takeWhile isNameChar).reverse ++ before)
          (after.dropWhile isNameChar) := by
  induction after generalizing before with
  | nil => exact ⟨rfl, rfl⟩
  | cons c after ih =>
      cases hh : find? ⟨before, c :: after⟩ with
      | none =>
          rw [rewritten_kept hh]
          by_cases hc : isNameChar c = true
          · obtain ⟨htake, hdrop⟩ := ih (c :: before) (by simpa using hc)
            simp [hc, htake, hdrop]
          · simp [hc, rewritten_kept hh]
      | some hit =>
          obtain ⟨hne, rest, hrest⟩ := ht.recognises _ _ hh
          change hit.matched ++ rest = c :: after at hrest
          obtain ⟨hmatched, hreplacement⟩ := ht.inner hh hb
          rw [← head?_append_any hne, hrest] at hmatched
          have hc : isNameChar c = false := by simpa using hmatched
          -- Neither text begins with a name character.
          have hwritten : (rewritten find? before (c :: after)).head?.any isNameChar = false := by
            rw [← hrest] at hh ⊢
            rw [rewritten_hit ht.recognises hh, head?_append_any (ht.nonempty hh)]
            exact hreplacement
          have hstop := @takeWhile_stretch isNameChar [] _ (by simp) hwritten
          have hrest := @dropWhile_stretch isNameChar [] _ (by simp) hwritten
          rw [List.nil_append] at hstop hrest
          rw [hstop, hrest]
          simp [hc]

/-- A name at a place where the pass keeps the next character is a name of the text that the pass
reads, and what follows it is what the pass writes from there on. -/
theorem dottedName?_rewritten (ht : Tame find?) {text seen before after name behind : Text}
    (hr : Reaches find? text seen before after)
    (hkept : after ≠ [] → find? ⟨before, after⟩ = none)
    (h : dottedName? ⟨seen, rewritten find? before after⟩ = some (name, behind)) :
    ∃ rest, dottedName? ⟨before, after⟩ = some (name, rest) ∧
      behind = rewritten find? (name.reverse ++ before) rest ∧ name ≠ [] := by
  obtain ⟨hseen, hsplit, hstart, hall, hbehind⟩ := dottedName?_eq_some_iff.1 h
  cases after with
  | nil =>
      obtain ⟨rfl, rfl⟩ := List.append_eq_nil_iff.1 hsplit.symm
      simp at hstart
  | cons c after =>
      obtain ⟨d, name, rfl⟩ := List.exists_cons_of_ne_nil
        (show name ≠ [] by rintro rfl; simp at hstart)
      rw [rewritten_kept (hkept (by simp)), List.cons_append] at hsplit
      obtain ⟨rfl, htail⟩ := List.cons.inj hsplit
      have hc : isNameChar c = true := hall c List.mem_cons_self
      have hname : ∀ d ∈ name, isNameChar d = true := fun d hd =>
        hall d (List.mem_cons_of_mem _ hd)
      obtain ⟨htake, hdrop⟩ := ht.names_rewritten (c :: before) after (by simpa using hc)
      rw [htail, takeWhile_stretch hname hbehind] at htake
      rw [htail, dropWhile_stretch hname hbehind, ← htake] at hdrop
      refine ⟨after.dropWhile isNameChar, ?_, by simpa using hdrop, by simp⟩
      rw [dottedName?_eq_some_iff]
      refine ⟨ht.edge hr hseen, ?_, hstart, hall, head?_dropWhile _ _⟩
      rw [htake, List.cons_append, List.takeWhile_append_dropWhile]

/-! ## Trailers -/

/-- A trailer behind a name that reaches into what the pass writes reached into the text in the
same way before. The stretch is what stands between the name and the place where the pass is. -/
theorem follows_of_rewritten (ht : Tame find?) {trailer : Trailer} (hs : trailer.Sound)
    {before stretch rest : Text} (hb : before.head?.any isNameChar = true)
    (h : trailer.Follows (stretch ++ rewritten find? (stretch.reverse ++ before) rest)) :
    trailer.Follows (stretch ++ rest) := by
  obtain ⟨tail, more, hsplit, hform, hmore⟩ := h
  rcases split_append hsplit.symm with ⟨left, hleft, rfl, rfl⟩ | ⟨tail, rfl, hwritten⟩
  · -- The trailer ends in front of what the pass writes.
    refine ⟨tail, left ++ rest, by simp, hform, ?_⟩
    rw [head?_append_any hleft] at hmore ⊢
    exact hmore
  rcases prefix_rewritten ht.recognises _ rest ⟨more, hwritten⟩ with
    ⟨rest, rfl, hkept⟩ | ⟨first, second, rest, hit, rfl, hne, rfl, hh, hp⟩
  · -- The tail was kept. A barred character behind it would have been kept, too.
    refine ⟨stretch ++ tail, rest, by simp, hform, ?_⟩
    rw [← hwritten, List.append_cancel_left_eq] at hkept
    cases rest with
    | nil => rfl
    | cons d rest =>
        cases hd : trailer.barred (stretch ++ tail) d with
        | false => simpa using hd
        | true =>
            have hnone :
                find? ⟨tail.reverse ++ (stretch.reverse ++ before), d :: rest⟩ = none := by
              cases hh : find? ⟨tail.reverse ++ (stretch.reverse ++ before), d :: rest⟩ with
              | none => rfl
              | some hit =>
                  exfalso
                  obtain ⟨hne, following, hf⟩ := ht.recognises _ _ hh
                  change hit.matched ++ following = d :: rest at hf
                  rcases hs.barred hform hd with rfl | ⟨hname, hend⟩
                  · obtain ⟨e, matched, hm⟩ := List.exists_cons_of_ne_nil hne
                    rw [hm, List.cons_append] at hf
                    refine ht.notEquals hh ?_
                    rw [hm, (List.cons.inj hf).1]
                    rfl
                  · rw [← head?_reverse_append_eq hb, List.reverse_append,
                      List.append_assoc] at hend
                    have hinner := (ht.inner hh hend).1
                    rw [← head?_append_any hne, hf] at hinner
                    simp [hname] at hinner
            rw [hkept, rewritten_kept hnone] at hmore
            simp [hd] at hmore
  · -- A hit begins in the tail, so it begins at its last character, which was there before.
    rw [← List.append_assoc] at hform
    obtain ⟨c, rfl, hc⟩ := hs.guarded (stretch ++ first) second _ hform hne hp (ht.opening hh) (by
      intro hend
      rw [← head?_reverse_append_eq hb, List.reverse_append, List.append_assoc] at hend
      have hinner := (ht.inner hh hend).2
      rw [head?_append_any (ht.nonempty hh)]
      exact hinner)
    have hhead : hit.replacement.head? = some c := by
      obtain ⟨d, replacement, hd⟩ := List.exists_cons_of_ne_nil (ht.nonempty hh)
      rw [hd, List.cons_append, List.cons_prefix_cons] at hp
      rw [hd, hp.1]
      rfl
    obtain ⟨matched, hmatched⟩ := List.head?_eq_some_iff.1 (ht.sameHead hh hhead hc)
    refine ⟨stretch ++ first ++ [c], matched ++ rest, by simp [hmatched], hform, ?_⟩
    cases hm : (matched ++ rest).head? with
    | none => rfl
    | some d => simpa using hs.closed hform hc

end Tame

/-! ## What a second recogniser finds -/

/-- The recogniser answers where a name of a certain form stands in front of the trailer. -/
def ReadsNames (other? : Cursor → Option Hit) (names : Text → Prop) (trailer : Trailer) : Prop :=
  ∀ c, other? c ≠ none ↔
    ∃ name rest, dottedName? c = some (name, rest) ∧ names name ∧ trailer.Follows rest

/-- A recogniser of names and trailers finds nothing in the written text if it found nothing where
the pass kept a character, and if no replacement holds the beginning of something to find. -/
theorem absent_rewritten (ht : Tame find?) {other? : Cursor → Option Hit} {names : Text → Prop}
    {trailer : Trailer} (hs : trailer.Sound) (hreads : ReadsNames other? names trailer)
    {text : Text}
    (hkept : ∀ c : Cursor, c.source = text → find? c = none → other? c = none)
    (hnew : ∀ {seen before rest : Text} {hit : Hit},
      Reaches find? text seen before (hit.matched ++ rest) →
      find? ⟨before, hit.matched ++ rest⟩ = some hit →
      AllNames (fun name behind => ¬ (names name ∧ trailer.Follows behind)) false hit.replacement
        (rewritten find? (hit.matched.reverse ++ before) rest)) :
    Absent other? (rewritten find? [] text) := by
  intro c hc
  cases hfound : other? c with
  | none => rfl
  | some found =>
      exfalso
      obtain ⟨name, behind, hname, hnames, hfollows⟩ := (hreads c).1 (by simp [hfound])
      cases located ht.recognises hc with
      | kept hr hnone =>
          obtain ⟨rest, hold, rfl, hne⟩ := ht.dottedName?_rewritten hr hnone hname
          have hall := (dottedName?_eq_some_iff.1 hold).2.2.2.1
          have hrest := @Tame.follows_of_rewritten _ ht _ hs _ [] _
            (head?_reverse_name hne hall _) hfollows
          refine (hreads _).2 ⟨name, rest, hold, hnames, hrest⟩ (hkept _ hr.source_eq (hnone ?_))
          rintro rfl
          obtain ⟨-, hnil, hstart, -⟩ := dottedName?_eq_some_iff.1 hold
          exact hne (List.append_eq_nil_iff.1 hnil.symm).1
      | inside hr hh hsplit hne =>
          exact (hnew hr hh).at_place hsplit hne hname ⟨hnames, hfollows⟩

end SdkUpgrade

import SdkUpgrade.Proofs.Catalogs
import SdkUpgrade.Proofs.Keywords

/-!
# The order of the rules that change one word

Any two of the rules that change one word may change places: `Kind.rewritten_comm`. Both passes
respell words of their own, and neither disturbs the other, so a text with both sets of words
marked says what the two passes leave, whichever of them runs first. Such a text is a list of
`Change`, and `Change.both_eq` says that it is determined by what each pass alone does.

Sorting a catalog puts the rules with larger order values behind the others, whatever these values
are. So giving new order values to the rules that change one word leaves the catalog's answers as
they are, `Catalog.applyAll_reordered`.
-/

namespace SdkUpgrade

open Text

/-! ## Two passes at once -/

/-- A stretch of a text under two passes: a character that both keep, or a hit of one of them. -/
inductive Change where
  | kept (c : Char)
  | first (h : Hit)
  | second (h : Hit)
  deriving DecidableEq, Repr

namespace Change

/-- The pieces of the first pass. -/
def pieces : Change → List Piece
  | kept c => [.kept c]
  | first h => [.hit h]
  | second h => h.matched.map .kept

/-- The change with the two passes exchanged. -/
def swap : Change → Change
  | kept c => kept c
  | first h => second h
  | second h => first h

/-- What both passes leave. -/
def result : Change → Text
  | kept c => [c]
  | first h | second h => h.replacement

/-- The pieces of the first pass over a text. -/
def firsts (changes : List Change) : List Piece :=
  changes.flatMap pieces

/-- The pieces of the second pass over a text. -/
def seconds (changes : List Change) : List Piece :=
  firsts (changes.map swap)

/-- What both passes leave of a text. -/
def both (changes : List Change) : Text :=
  changes.flatMap result

/-- A piece of the first pass, which the second one keeps. -/
def ofPiece : Piece → Change
  | .kept c => kept c
  | .hit h => first h

section Lists

variable (changes more : List Change) (text : Text) (c : Char) (found : Hit)

@[simp] theorem firsts_nil : firsts [] = [] := rfl

@[simp] theorem seconds_nil : seconds [] = [] := rfl

@[simp] theorem firsts_append : firsts (changes ++ more) = firsts changes ++ firsts more :=
  List.flatMap_append

@[simp] theorem seconds_append : seconds (changes ++ more) = seconds changes ++ seconds more := by
  simp [seconds]

@[simp] theorem both_append : both (changes ++ more) = both changes ++ both more :=
  List.flatMap_append

@[simp] theorem firsts_kept : firsts (kept c :: changes) = .kept c :: firsts changes := rfl

@[simp] theorem seconds_kept : seconds (kept c :: changes) = .kept c :: seconds changes := rfl

@[simp] theorem both_kept : both (kept c :: changes) = c :: both changes := rfl

@[simp] theorem firsts_first :
    firsts (first found :: changes) = .hit found :: firsts changes := rfl

@[simp] theorem seconds_first :
    seconds (first found :: changes) = found.matched.map .kept ++ seconds changes := rfl

@[simp] theorem both_first :
    both (first found :: changes) = found.replacement ++ both changes := rfl

@[simp] theorem firsts_second :
    firsts (second found :: changes) = found.matched.map .kept ++ firsts changes := rfl

@[simp] theorem seconds_second :
    seconds (second found :: changes) = .hit found :: seconds changes := rfl

@[simp] theorem both_second :
    both (second found :: changes) = found.replacement ++ both changes := rfl

end Lists

/-- The pieces of the first pass alone. -/
theorem of_pieces (pieces : List Piece) : firsts (pieces.map ofPiece) = pieces ∧
    seconds (pieces.map ofPiece) = (sourceOf pieces).map .kept ∧
    both (pieces.map ofPiece) = resultOf pieces := by
  induction pieces with
  | nil => exact ⟨rfl, rfl, rfl⟩
  | cons piece pieces ih =>
      obtain ⟨hfirsts, hseconds, hboth⟩ := ih
      cases piece <;> simp [ofPiece, hfirsts, hseconds, hboth]

/-- A text that both passes keep. -/
theorem of_kept (text : Text) : firsts (text.map kept) = text.map .kept ∧
    seconds (text.map kept) = text.map .kept ∧ both (text.map kept) = text := by
  have hpieces := of_pieces (text.map .kept)
  rw [List.map_map, sourceOf_map_kept, resultOf_map_kept] at hpieces
  exact hpieces

/-- A site of the second pass, in whose lead the first one may change something. -/
def ofSite (lead : List Piece) (word new tail : Text) : List Change :=
  lead.map ofPiece ++ second ⟨word, new⟩ :: tail.map kept

/-- The first pass keeps the word of the site and its tail, and the second one respells the
word. -/
theorem of_site (lead : List Piece) (word new tail : Text) :
    firsts (ofSite lead word new tail) = lead ++ (word.map .kept ++ tail.map .kept) ∧
      seconds (ofSite lead word new tail) = Site.pieces new ⟨sourceOf lead, word, tail⟩ ∧
      both (ofSite lead word new tail) = resultOf lead ++ (new ++ tail) := by
  obtain ⟨hfirsts, hseconds, hboth⟩ := of_pieces lead
  obtain ⟨hfirsts', hseconds', hboth'⟩ := of_kept tail
  refine ⟨?_, ?_, ?_⟩
  · rw [ofSite, firsts_append, firsts_second, hfirsts, hfirsts']
  · rw [ofSite, seconds_append, seconds_second, hseconds, hseconds']
    rfl
  · rw [ofSite, both_append, both_second, hboth, hboth']

/-- A stretch that one pass keeps is not the beginning of one that it changes. -/
theorem map_kept_ne_hit {text : Text} (h : text ≠ []) (rest more : List Piece) (found : Hit) :
    text.map Piece.kept ++ rest ≠ .hit found :: more := by
  obtain ⟨c, text, rfl⟩ := List.exists_cons_of_ne_nil h
  simp

/-- What both passes leave is determined by what each of them does, if the hits of the
second pass are not empty. -/
theorem both_eq {changes others : List Change}
    (hne : ∀ found, .hit found ∈ seconds changes → found.matched ≠ [])
    (hne' : ∀ found, .hit found ∈ seconds others → found.matched ≠ [])
    (hfirsts : firsts changes = firsts others) (hseconds : seconds changes = seconds others) :
    both changes = both others := by
  induction changes generalizing others with
  | nil =>
      cases others with
      | nil => rfl
      | cons other others =>
          cases other with
          | kept c => simp at hfirsts
          | first found => simp at hfirsts
          | second found => simp at hseconds
  | cons change changes ih =>
      have hrest := fun found hmem => hne found
        ((seconds_append [change] changes).symm ▸ List.mem_append_right _ hmem)
      cases others with
      | nil =>
          cases change with
          | kept c => simp at hfirsts
          | first found => simp at hfirsts
          | second found => simp at hseconds
      | cons other others =>
          have hrest' := fun found hmem => hne' found
            ((seconds_append [other] others).symm ▸ List.mem_append_right _ hmem)
          -- The first change is the same in both lists: what it does shows in one of the passes.
          cases change with
          | kept c =>
              cases other with
              | kept d =>
                  obtain ⟨hc, hfirsts'⟩ := List.cons.inj hfirsts
                  obtain rfl := Piece.kept.inj hc
                  exact congrArg (c :: ·) (ih hrest hrest' hfirsts' (List.cons.inj hseconds).2)
              | first found => simp at hfirsts
              | second found => simp at hseconds
          | first found =>
              cases other with
              | kept d => simp at hfirsts
              | first found' =>
                  obtain ⟨hsame, hfirsts'⟩ := List.cons.inj hfirsts
                  obtain rfl := Piece.hit.inj hsame
                  exact congrArg (found.replacement ++ ·)
                    (ih hrest hrest' hfirsts' (List.append_cancel_left hseconds))
              | second found' =>
                  exact absurd hfirsts.symm (map_kept_ne_hit (hne' found' (by simp)) _ _ _)
          | second found =>
              cases other with
              | kept d => simp at hseconds
              | first found' => exact absurd hfirsts (map_kept_ne_hit (hne found (by simp)) _ _ _)
              | second found' =>
                  obtain ⟨hsame, hseconds'⟩ := List.cons.inj hseconds
                  obtain rfl := Piece.hit.inj hsame
                  exact congrArg (found.replacement ++ ·)
                    (ih hrest hrest' (List.append_cancel_left hfirsts) hseconds')

/-- Exchanging the two passes exchanges their pieces. -/
theorem seconds_swap (changes : List Change) : seconds (changes.map swap) = firsts changes := by
  have hswap : swap ∘ swap = id := by
    funext change
    cases change <;> rfl
  rw [seconds, List.map_map, hswap, List.map_id]

/-- What both passes leave does not change when they are exchanged. -/
theorem both_swap (changes : List Change) : both (changes.map swap) = both changes := by
  induction changes with
  | nil => rfl
  | cons change changes ih =>
      cases change with
      | kept c => exact congrArg (c :: ·) ih
      | first found => exact congrArg (found.replacement ++ ·) ih
      | second found => exact congrArg (found.replacement ++ ·) ih

end Change

/-! ## Two kinds at once -/

namespace Kind

variable {kind other : Kind}

/-- Without a radius, the window is the whole text. -/
theorem text_window_none (source : Text) (start stop : Int) :
    (Window.around none source start stop).text = source := by
  have hlength : ¬ (source.length : Int) < 0 := by omega
  simp [Window.around, Window.text, slice, clampOffset, hlength]

/-- Where the whole text is the context, a kind writes the same words at corresponding places of a
text and of what another kind leaves of it. -/
theorem newWord_none (hkind : kind ∈ values) (hother : other ∈ values) {text word tail : Text}
    {front lead rest : List Piece} (hpieces : other.respellings none 0 [] text =
      front ++ (lead ++ (word.map .kept ++ (tail.map .kept ++ rest)))) :
    kind.newWord none ⟨(sourceOf front).reverse,
        sourceOf lead ++ (word ++ (tail ++ sourceOf rest))⟩ ⟨sourceOf lead, word, tail⟩ =
      kind.newWord none ⟨(resultOf front).reverse,
        resultOf lead ++ (word ++ (tail ++ resultOf rest))⟩ ⟨resultOf lead, word, tail⟩ := by
  have hsource := sourceOf_respellings hother none [] text
  have hresult := resultOf_respellings hother none [] text
  have hisolated := isolated_respellings hother none [] text
  rw [hpieces] at hsource hresult hisolated
  have hintent := classify_rewritten hother none text
  rw [← hresult, ← hsource] at hintent
  simp only [sourceOf_append, resultOf_append, sourceOf_map_kept, resultOf_map_kept] at hintent
  have hmodel : ∀ start stop start' stop',
      successorIn word (Window.around none
        (Cursor.source ⟨(sourceOf front).reverse,
          sourceOf lead ++ (word ++ (tail ++ sourceOf rest))⟩) start stop).text =
      successorIn word (Window.around none
        (Cursor.source ⟨(resultOf front).reverse,
          resultOf lead ++ (word ++ (tail ++ resultOf rest))⟩) start' stop').text := by
    intro start stop start' stop'
    rw [text_window_none, text_window_none, successorIn, successorIn, Cursor.source,
      Cursor.source, List.reverse_reverse, List.reverse_reverse, hintent]
  have hplain := isPlain_words other hother
  simp only [values, List.mem_cons, List.not_mem_nil, or_false] at hkind
  rcases hkind with rfl | rfl | rfl | rfl
  · exact hmodel _ _ _ _
  · exact hmodel _ _ _ _
  · exact newWord_respelled (.inl rfl) hplain none none hisolated _ _ word tail
  · exact newWord_respelled (.inr rfl) hplain none none hisolated _ _ word tail

/-- The changes of two kinds on a text, and what the one leaves of the other's output. -/
theorem exists_changes (hkind : kind ∈ values) (hother : other ∈ values) (hne : kind ≠ other)
    (text : Text) : ∃ changes, Change.firsts changes = other.respellings none 0 [] text ∧
      Change.seconds changes = kind.respellings none 0 [] text ∧
      Change.both changes =
        rewritten (kind.hit? none) [] (rewritten (other.hit? none) [] text) := by
  have hall : ∀ front back, other.respellings none 0 [] text = front ++ back →
      ∃ changes, Change.firsts changes = back ∧
        Change.seconds changes = kind.respellings none 0 (sourceOf front).reverse
          (sourceOf back) ∧
        Change.both changes =
          rewritten (kind.hit? none) (resultOf front).reverse (resultOf back) := by
    refine respelled_induction hkind (isPlain_words other hother)
      (ignores_words kind hkind other hother hne)
        (isolated_respellings hother none [] text) ?_ ?_ ?_
    · exact ⟨[], rfl, rfl, rfl⟩
    · rintro front piece back - hold hnew ⟨changes, hfirsts, hseconds, hboth⟩
      have hpiece := Change.of_pieces [piece]
      refine ⟨[piece].map Change.ofPiece ++ changes, ?_, ?_, ?_⟩
      · rw [Change.firsts_append, hpiece.1, hfirsts, List.singleton_append]
      · have hstretch := respellings_passes none hold
        rw [Change.seconds_append, hpiece.2.1, hseconds]
        simpa [sourceOf] using hstretch.symm
      · have hstretch := rewritten_passes hkind none hnew
        rw [Change.both_append, hpiece.2.2, hboth]
        simpa [resultOf] using hstretch.symm
    · rintro front lead word tail rest hpieces hold hnew - ⟨changes, hfirsts, hseconds, hboth⟩
      have htext : ∀ lead text : Text, lead ++ (word ++ (tail ++ text)) =
          Site.text ⟨lead, word, tail⟩ ++ text := by
        intro lead text
        simp [Site.text]
      have hword := newWord_none hkind hother hpieces
      rw [htext] at hold hnew
      rw [htext, htext] at hword
      have hsite := respellings_site hkind none hold
      have hsite' := rewritten_site hkind none hnew
      rw [← hword] at hsite'
      generalize kind.newWord none ⟨(sourceOf front).reverse, _⟩ ⟨sourceOf lead, word, tail⟩ = new
        at hsite hsite'
      obtain ⟨hfirst, hsecond, hleft⟩ := Change.of_site lead word new tail
      refine ⟨Change.ofSite lead word new tail ++ changes, ?_, ?_, ?_⟩
      · rw [Change.firsts_append, hfirst, hfirsts]
        simp
      · rw [Change.seconds_append, hsecond, hseconds]
        simpa [Site.text] using hsite.symm
      · rw [Change.both_append, hleft, hboth]
        simpa [Site.text] using hsite'.symm
  have hchanges := hall [] _ rfl
  rwa [sourceOf_respellings hother, resultOf_respellings hother] at hchanges

/-- Where the whole text is the context, the passes of two kinds that change one word may change
places. -/
theorem rewritten_comm (hkind : kind ∈ values) (hother : other ∈ values) (text : Text) :
    rewritten (kind.hit? none) [] (rewritten (other.hit? none) [] text) =
      rewritten (other.hit? none) [] (rewritten (kind.hit? none) [] text) := by
  by_cases hne : kind = other
  · rw [hne]
  · obtain ⟨changes, hfirsts, hseconds, hboth⟩ := exists_changes hkind hother hne text
    obtain ⟨changes', hfirsts', hseconds', hboth'⟩ :=
      exists_changes hother hkind (fun heq => hne heq.symm) text
    have hmatched : ∀ found, .hit found ∈ kind.respellings none 0 [] text → found.matched ≠ [] :=
      fun found hmem => (isPlain_words kind hkind _
        ((isolated_respellings hkind none [] text).mem_words hmem)).ne_nil
    have hswapped : Change.seconds (changes'.map Change.swap) =
        kind.respellings none 0 [] text := by
      rw [Change.seconds_swap, hfirsts']
    rw [← hboth, ← hboth', ← Change.both_swap changes']
    refine Change.both_eq ?_ ?_ (hfirsts.trans hseconds'.symm) (hseconds.trans hswapped.symm)
    · rwa [hseconds]
    · rwa [hswapped]

/-! ## Catalogs in another order -/

/-- The usual rule of a kind with another order value. -/
def reordered (order : Kind → Int) (kind : Kind) : Rule :=
  { Rule.ofKind kind with order := order kind }

end Kind

namespace Catalog

variable {order : Kind → Int}

/-- Sorting leaves the rules with the usual order values in front and sorts the others behind
them. -/
theorem mergeSort_reordered (hshapes : ∀ kind ∈ Kind.shapes, order kind = kind.order)
    (hvalues : ∀ kind ∈ Kind.values, 30 < order kind) {rules : List Rule}
    (hrules : rules.Perm (Kind.all.map (Kind.reordered order))) :
    rules.mergeSort Rule.precedes = Kind.shapes.map Rule.ofKind ++
      (Kind.values.map (Kind.reordered order)).mergeSort Rule.precedes := by
  have hsame : Kind.shapes.map (Kind.reordered order) = Kind.shapes.map Rule.ofKind := by
    refine List.map_congr_left fun kind hkind => ?_
    rw [Kind.reordered, hshapes kind hkind]
    rfl
  have hperm : (rules.mergeSort Rule.precedes).Perm (Kind.shapes.map Rule.ofKind ++
      (Kind.values.map (Kind.reordered order)).mergeSort Rule.precedes) := by
    refine (List.mergeSort_perm rules _).trans (hrules.trans ?_)
    rw [Kind.all_eq, List.map_append, hsame]
    exact (List.mergeSort_perm _ _).symm.append_left _
  have hkind : ∀ rule ∈ rules.mergeSort Rule.precedes, ∃ kind,
      rule = Kind.reordered order kind := by
    intro rule hmem
    obtain ⟨kind, -, rfl⟩ := List.mem_map.1
      (hrules.mem_iff.1 ((List.mergeSort_perm rules _).mem_iff.1 hmem))
    exact ⟨kind, rfl⟩
  have hsorted : (Kind.shapes.map Rule.ofKind ++
      (Kind.values.map (Kind.reordered order)).mergeSort Rule.precedes).Pairwise
        (Rule.precedes · ·) := by
    rw [List.pairwise_append]
    refine ⟨by decide, Rule.pairwise_precedes _, ?_⟩
    intro a ha b hb
    obtain ⟨kind, hkind, rfl⟩ := List.mem_map.1 ha
    obtain ⟨other, hother, rfl⟩ := List.mem_map.1 ((List.mergeSort_perm _ _).mem_iff.1 hb)
    have hlow : ∀ kind ∈ Kind.shapes, kind.order ≤ 30 := by decide
    have hlt : (Rule.ofKind kind).order < (Kind.reordered order other).order := by
      show kind.order < order other
      have hkind' := hlow kind hkind
      have hother' := hvalues other hother
      omega
    simp [Rule.precedes, hlt]
  -- Two sorted lists of the same rules are equal, since identifiers tell the rules apart.
  refine hperm.eq_of_pairwise ?_ (Rule.pairwise_precedes rules) hsorted
  intro a b ha hb hab hba
  obtain ⟨kind, rfl⟩ := hkind a ha
  obtain ⟨other, rfl⟩ := hkind b (hperm.mem_iff.2 hb)
  rw [Kind.id_inj (Rule.id_eq_of_precedes hab hba)]

/-- The rules that change one word may be given any order values behind the other rules, equal
ones included: with the whole text as context, the catalog answers as the usual one does. -/
theorem applyAll_reordered (hshapes : ∀ kind ∈ Kind.shapes, order kind = kind.order)
    (hvalues : ∀ kind ∈ Kind.values, 30 < order kind) {rules : List Rule}
    (hrules : rules.Perm (Kind.all.map (Kind.reordered order))) :
    ∃ catalog, ofRules rules = .ok catalog ∧
      ∀ text, catalog.applyAll none text = standard.applyAll none text := by
  have hids : (rules.map Rule.id).Nodup := by
    have hall : (Kind.all.map (Kind.reordered order)).map Rule.id = Kind.all.map Kind.id := by
      rw [List.map_map]
      rfl
    refine (hrules.map Rule.id).nodup_iff.2 ?_
    rw [hall]
    decide
  obtain ⟨catalog, hok, hsorted⟩ := exists_ofRules hids
  refine ⟨catalog, hok, fun text => ?_⟩
  have hcomm : ∀ a ∈ Kind.values.map (Kind.reordered order),
      ∀ b ∈ Kind.values.map (Kind.reordered order), ∀ text : Text,
        b.apply none (a.apply none text) = a.apply none (b.apply none text) := by
    intro a ha b hb text
    obtain ⟨kind, hkind, rfl⟩ := List.mem_map.1 ha
    obtain ⟨other, hother, rfl⟩ := List.mem_map.1 hb
    exact Kind.rewritten_comm hother hkind text
  have hfold : ∀ text, ((Kind.values.map (Kind.reordered order)).mergeSort Rule.precedes).foldl
      (fun text rule => rule.apply none text) text =
        (Kind.values.map (Kind.reordered order)).foldl (fun text rule => rule.apply none text)
          text := by
    intro text
    have hperm := List.mergeSort_perm (Kind.values.map (Kind.reordered order)) Rule.precedes
    exact hperm.foldl_eq' (fun a ha b hb => hcomm a (hperm.mem_iff.1 ha) b (hperm.mem_iff.1 hb))
      text
  rw [applyAll, hsorted, mergeSort_reordered hshapes hvalues hrules, List.foldl_append,
    hfold, applyAll,
    show standard.rules = Kind.shapes.map Rule.ofKind ++ Kind.values.map Rule.ofKind from rfl,
    List.foldl_append, List.foldl_map, List.foldl_map]
  rfl

/-- The rules that change one word in the opposite order. All four of them
change something here. -/
theorem applyAll_reordered_backwards :
    let order : Kind → Int :=
      fun kind => if kind ∈ Kind.values then 91 - kind.order else kind.order
    let text : Text := "f(model='text-ada-001', max_tokens=5)\nengine = 'ada'"
    (∀ kind ∈ Kind.shapes, order kind = kind.order) ∧ (∀ kind ∈ Kind.values, 30 < order kind) ∧
      ∃ catalog, ofRules (Kind.all.map (Kind.reordered order)) = .ok catalog ∧
        catalog.applyAll none text = standard.applyAll none text ∧ standard.applyAll none text =
          "f(model='gpt-4.1-mini', max_completion_tokens=5)\nmodel = 'gpt-4.1-mini'".toList := by
  intro order text
  have hshapes : ∀ kind ∈ Kind.shapes, order kind = kind.order := by decide
  have hvalues : ∀ kind ∈ Kind.values, 30 < order kind := by decide
  obtain ⟨catalog, hok, hsame⟩ := applyAll_reordered hshapes hvalues (List.Perm.refl _)
  exact ⟨hshapes, hvalues, catalog, hok, hsame text, by decide +kernel⟩

end Catalog

end SdkUpgrade

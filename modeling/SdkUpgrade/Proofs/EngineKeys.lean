import SdkUpgrade.Proofs.Undisturbed

/-!
# Engine keys that a pass leaves behind

A text is `Pending` if an engine key with a quoted value stands in it where the rule looks for
one. One pass of the rule does not always rename all of these keys: the separator of a key takes
the whitespace behind its sign, line breaks included, and a second key that begins the next line
is not found any more. Then the first key `Hides` the second one.

There is no other way: `Rule.engine_pending_iff` says that keys are left exactly if the
pass takes a key that hides another one. Where the pass stands, nothing is left
(`EngineKey.rewritten_ne_key`), since the pass changes whole names only, so that a key that
it leaves stood in its text. And in what it writes for a key, a line begins only in the
lead and in the separator.
-/

namespace SdkUpgrade

open Text Source

/-- A character of a text in two parts stands in the first or in the second one. -/
theorem append_eq_append_cons {left right first second : Text} {c : Char}
    (h : left ++ right = first ++ c :: second) :
    (∃ more, left = first ++ c :: more ∧ second = more ++ right) ∨
      ∃ more, first = left ++ more ∧ right = more ++ c :: second := by
  rcases List.append_eq_append_iff.1 h with ⟨more, hfirst, hright⟩ | ⟨more, hleft, hsecond⟩
  · exact .inr ⟨more, hfirst, hright⟩
  · cases more with
    | nil => exact .inr ⟨[], by simpa using hleft.symm, by simpa using hsecond.symm⟩
    | cons d more =>
        obtain ⟨rfl, rfl⟩ := List.cons.inj hsecond
        exact .inl ⟨more, hleft, rfl⟩

/-- The rule for engine keys changes one word. -/
theorem Kind.engineKey_mem_values : Kind.engineKey ∈ Kind.values := by
  decide

namespace EngineKey

/-! ## Keys that are left -/

/-- The text goes on with the name of an engine key in the given quotes, a separator and the
quote that opens a value. -/
def BeginsKey (keyQuote text : Text) : Prop :=
  ∃ separator q rest, IsSeparator separator ∧ isQuote q = true ∧
    text = "engine" ++ (keyQuote ++ (separator ++ q :: rest))

/-- An engine key with a quoted value stands in the text, bare or between two equal quotes, at
the beginning of a line or behind a character that opens an argument list, an object or an
entry, whitespace apart. -/
def Pending (text : Text) : Prop :=
  ∃ front gap keyQuote rest, text = front ++ (gap ++ (keyQuote ++ rest)) ∧
    front.getLast?.all (fun c => c == '\n' || opensKey c) = true ∧ IsGap gap ∧
    IsOptionalQuote keyQuote ∧ BeginsKey keyQuote rest

/-- A key hides another one in what follows it: a line begins in the whitespace behind its sign,
and the quote of its value, if it has one, is the quote of the other key. If it has none, its end
is not the beginning of a line. -/
def Hides (key : EngineKey) (rest : Text) : Prop :=
  BeginsKey key.valueQuote rest ∧
    (∃ front gap, key.separator = front ++ '\n' :: gap ∧ IsGap gap) ∧
    (key.valueQuote = [] → key.separator.getLast? ≠ some '\n')

/-- The lead that a key may have behind a text, the nearest character of which comes first. -/
def IsLead (before lead : Text) : Prop :=
  IsGap lead ∧ before.head?.all (· == '\n') = true ∨
    ∃ d gap, opensKey d = true ∧ IsGap gap ∧ lead = d :: gap

section Keys

variable {before after lead keyQuote text : Text}

/-- The name of a key is no quote. -/
theorem BeginsKey.isQuote_head? (h : BeginsKey keyQuote text) :
    text.head?.any isQuote = false := by
  obtain ⟨separator, q, rest, -, -, rfl⟩ := h
  exact (by decide : isQuote 'e' = false)

/-- A key begins with a quote or with its name. -/
theorem BeginsKey.head? (h : BeginsKey keyQuote text) (hquote : IsOptionalQuote keyQuote) :
    (keyQuote ++ text).head?.any isBlank = false ∧
      ∃ c rest, keyQuote ++ text = c :: rest ∧ (isQuote c = true ∨ c = 'e') := by
  obtain ⟨separator, q, rest, -, -, rfl⟩ := h
  rcases hquote with rfl | ⟨q, hq, rfl⟩
  · exact ⟨(by decide : isBlank 'e' = false), 'e', _, rfl, .inr rfl⟩
  · exact ⟨isBlank_of_isQuote hq, q, _, rfl, .inl hq⟩

/-- What stands between the name of a key and its value consists of signs. -/
theorem isSigns_tail {separator : Text} {q : Char} (hquote : IsOptionalQuote keyQuote)
    (hseparator : IsSeparator separator) (hq : isQuote q = true) :
    IsSigns (keyQuote ++ (separator ++ [q])) :=
  isSigns_append.2 ⟨isSigns_optionalQuote hquote, isSigns_append.2 ⟨isSigns_separator hseparator,
    isSigns_singleton (isTokenChar_of_isQuote hq)⟩⟩

/-- A lead consists of signs. -/
theorem IsLead.isSigns (h : IsLead before lead) : IsSigns lead := by
  rcases h with ⟨hgap, -⟩ | ⟨d, gap, hd, hgap, rfl⟩
  · exact isSigns_gap hgap
  · refine isSigns_append.2 ⟨isSigns_singleton (isTokenChar_eq_false (opensKey_class hd).1 ?_),
      isSigns_gap hgap⟩
    rintro rfl
    exact absurd hd (by decide)

/-- Of what stands in front of a lead, only the nearest character matters. -/
theorem IsLead.congr {before' : Text} (h : IsLead before lead)
    (hhead : before.head? = before'.head?) :
    IsLead before' lead := by
  rw [IsLead, ← hhead]
  exact h

/-- Behind a line break, the whitespace of a lead can be exchanged. -/
theorem IsLead.extend {first more gap : Text} (h : IsLead before (first ++ '\n' :: more))
    (hgap : IsGap gap) : IsLead before (first ++ '\n' :: gap) := by
  have hextend : ∀ front : Text, IsGap (front ++ '\n' :: more) →
      IsGap (front ++ '\n' :: gap) := by
    intro front hfront c hc
    rcases List.mem_append.1 hc with hc | hc
    · exact hfront c (List.mem_append_left _ hc)
    · rcases List.mem_cons.1 hc with rfl | hc
      · decide
      · exact hgap c hc
  rcases h with ⟨hfirst, hline⟩ | ⟨d, front, hd, hfront, hcons⟩
  · exact .inl ⟨hextend first hfirst, hline⟩
  · cases first with
    | nil =>
        obtain ⟨rfl, -⟩ := List.cons.inj hcons
        exact absurd hd (by decide)
    | cons e first =>
        obtain ⟨rfl, rfl⟩ := List.cons.inj hcons
        exact .inr ⟨e, first ++ '\n' :: gap, hd, hextend first hfront, rfl⟩

/-- A key is found exactly where its lead, its name in its quotes, a separator and, if there is
one, the quote of a value stand one behind the other. -/
theorem at?_eq_some_iff {key : EngineKey} : at? ⟨before, after⟩ = some key ↔
    IsLead before key.lead ∧ IsOptionalQuote key.keyQuote ∧
      ∃ rest, after = key.named "engine" ++ rest ∧
        separator? (key.separator ++ (key.valueQuote ++ rest)) =
          some (key.separator, key.valueQuote ++ rest) ∧
        optionalQuote (key.valueQuote ++ rest) = (key.valueQuote, rest) := by
  constructor
  · intro h
    obtain ⟨hlead, hquote, -⟩ := of_at?_eq_some h
    refine ⟨hlead, hquote, ?_⟩
    have hbehind : ∃ opening text, after = opening ++ text ∧ behind? opening text = some key := by
      unfold at? at h
      split at h
      · rename_i found hfound
        obtain rfl := Option.some.inj h
        split at hfound
        · exact ⟨[], _, rfl, hfound⟩
        · exact absurd hfound (by simp)
      · unfold behindOpening? at h
        split at h
        · exact absurd h (by simp)
        · rename_i d text hafter
          split at h
          · exact ⟨[d], text, hafter, h⟩
          · exact absurd h (by simp)
    obtain ⟨opening, text, rfl, hread⟩ := hbehind
    obtain ⟨gap, rest, -, hopening, -, hseparator, hvalue, rfl⟩ := behind?_eq_some_iff.1 hread
    refine ⟨rest, ?_, hseparator, hvalue⟩
    rw [named_eq, hopening]
    simp
  · rintro ⟨hlead, hquote, rest, rfl, hseparator, hvalue⟩
    have hread : ∀ (opening : Text) {gap : Text}, IsGap gap → key.lead = opening ++ gap →
        behind? opening (gap ++ (key.keyQuote ++ ("engine" ++ (key.keyQuote ++ (key.separator ++
          (key.valueQuote ++ rest)))))) = some key := fun _ _ hgap hopening =>
      behind?_eq_some_iff.2 ⟨_, rest, hgap, hopening, hquote, hseparator, hvalue, rfl⟩
    rw [named_eq]
    rcases hlead with ⟨hgap, hline⟩ | ⟨d, gap, hd, hgap, hopening⟩
    · have hstart : ∀ text, atLineStart ⟨before, text⟩ = true := fun _ => hline
      simp only [at?, hstart, if_true, List.append_assoc, hread [] hgap rfl]
    · have hnone : ∀ text,
          (if atLineStart ⟨before, d :: text⟩ then behind? [] (d :: text) else none) = none := by
        intro text
        rw [behind?_opening hd, ite_self]
      rw [hopening]
      simp only [List.append_assoc, List.cons_append, at?, hnone, behindOpening?, hd, if_true,
        hread [d] hgap hopening]

/-- A key with a quoted value is found behind its lead. -/
theorem at?_of_beginsKey (hlead : IsLead before lead) (hquote : IsOptionalQuote keyQuote)
    (h : BeginsKey keyQuote text) : ∃ key, at? ⟨before, lead ++ (keyQuote ++ text)⟩ = some key ∧
      key.lead = lead ∧ key.keyQuote = keyQuote ∧ key.valueQuote ≠ [] := by
  obtain ⟨separator, q, rest, ⟨left, sign, right, hleft, hsign, hright, rfl⟩, hq, rfl⟩ := h
  refine ⟨⟨lead, keyQuote, left ++ sign :: right, [q]⟩, ?_, rfl, rfl, List.cons_ne_nil q []⟩
  refine at?_eq_some_iff.2 ⟨hlead, hquote, rest, by simp [named], ?_, by simp [optionalQuote, hq]⟩
  exact separator?_eq_some_iff.2 ⟨rfl, isBlank_of_isQuote hq, left, sign, right, hleft,
    hright, rfl, hsign.imp_right fun h => ⟨h, head?_gap_quote hright hq⟩⟩

/-- A key with a quoted value that is found stands behind its lead. -/
theorem beginsKey_of_at? {key : EngineKey} (h : at? ⟨before, after⟩ = some key)
    (hvalue : key.valueQuote ≠ []) : IsLead before key.lead ∧ IsOptionalQuote key.keyQuote ∧
      ∃ text, BeginsKey key.keyQuote text ∧ after = key.lead ++ (key.keyQuote ++ text) := by
  obtain ⟨hlead, hquote, hseparator, hnone | ⟨q, hq, hcons⟩⟩ := of_at?_eq_some h
  · exact absurd hnone hvalue
  · obtain ⟨rest, hrest⟩ := at?_eq_some h
    refine ⟨hlead, hquote, _, ⟨key.separator, q, rest, hseparator, hq, rfl⟩, ?_⟩
    rw [named_eq, hcons] at hrest
    simpa using hrest.symm

/-- A text with a key that is left has a place where a key with a quoted value is found. -/
theorem Pending.exists_at? (h : Pending text) :
    ∃ c : Cursor, c.source = text ∧ ∃ key, at? c = some key ∧ key.valueQuote ≠ [] := by
  obtain ⟨front, gap, keyQuote, rest, rfl, hfront, hgap, hquote, hbegins⟩ := h
  rcases List.eq_nil_or_concat front with rfl | ⟨front, d, rfl⟩
  · obtain ⟨key, hkey, -, -, hvalue⟩ :=
      @at?_of_beginsKey [] gap keyQuote rest (.inl ⟨hgap, rfl⟩) hquote hbegins
    exact ⟨_, rfl, key, hkey, hvalue⟩
  · rw [List.concat_eq_append, List.getLast?_concat, Option.all_some, Bool.or_eq_true] at hfront
    rw [List.concat_eq_append]
    rcases hfront with hline | hd
    · obtain ⟨key, hkey, -, -, hvalue⟩ := @at?_of_beginsKey (d :: front.reverse) gap keyQuote rest
        (.inl ⟨hgap, hline⟩) hquote hbegins
      exact ⟨_, by simp [Cursor.source], key, hkey, hvalue⟩
    · obtain ⟨key, hkey, -, -, hvalue⟩ := @at?_of_beginsKey front.reverse (d :: gap) keyQuote rest
        (.inr ⟨d, gap, hd, hgap, rfl⟩) hquote hbegins
      exact ⟨_, by simp [Cursor.source], key, hkey, hvalue⟩

end Keys

/-! ## What a pass does to keys -/

section Pass

variable {before after : Text}

/-- A pass respells engine keys only. -/
theorem matched_of_respellings (radius : Option Nat) (before after : Text) {found : Hit}
    (h : .hit found ∈ Kind.engineKey.respellings radius 0 before after) :
    found.matched = "engine" := by
  have hkind := Kind.engineKey_mem_values
  induction before, after using Kind.site_induction hkind with
  | nil before => exact absurd h List.not_mem_nil
  | kept before c after hnone ih =>
      rw [Kind.respellings, hnone] at h
      rcases List.mem_cons.1 h with h | h
      · exact absurd h (by simp)
      · exact ih h
  | site before site rest hsite ih =>
      obtain ⟨_, _, _, _, _, reading⟩ := Kind.exists_reading hkind hsite
      rw [Kind.respellings_site hkind radius hsite, Site.pieces] at h
      have hword : site.word = "engine" := List.mem_singleton.1 reading.word_mem
      simp only [List.mem_append, List.mem_cons, List.mem_map, reduceCtorEq, and_false,
        exists_false, false_or, or_false, Piece.hit.injEq] at h
      rcases h with rfl | h
      · exact hword
      · exact ih h

/-- What a pass writes stands for the same signs as its text. -/
theorem sameSign_rewritten (before after : Text) :
    SameSign after (rewritten hit? before after) := by
  have hkind := Kind.engineKey_mem_values
  have hsame := (Kind.isolated_respellings hkind none before after).sameSign
    (Kind.isPlain_words _ hkind)
  rwa [Kind.sourceOf_respellings hkind, Kind.resultOf_respellings hkind] at hsame

/-- Signs at the beginning of a text are written as they are. -/
theorem rewritten_signs {signs : Text} (hsigns : IsSigns signs) (before rest : Text) :
    ∃ more, rewritten hit? before (signs ++ rest) = signs ++ more := by
  have hkind := Kind.engineKey_mem_values
  obtain ⟨back, hpieces, -⟩ :=
    (Kind.isolated_respellings hkind none before (signs ++ rest)).of_signs
      (Kind.isPlain_words _ hkind) hsigns (Kind.sourceOf_respellings hkind none before _)
  have hresult := Kind.resultOf_respellings hkind none before (signs ++ rest)
  rw [hpieces, resultOf_append, resultOf_map_kept] at hresult
  exact ⟨_, hresult.symm⟩

/-- A key that a pass leaves behind signs stood in its text. -/
theorem beginsKey_of_rewritten {signs keyQuote text : Text} (hsigns : IsSigns signs)
    (hquote : IsOptionalQuote keyQuote) (hbegins : BeginsKey keyQuote text)
    (h : rewritten hit? before after = signs ++ text) :
    ∃ text', BeginsKey keyQuote text' ∧ after = signs ++ text' := by
  have hkind := Kind.engineKey_mem_values
  have hw := Kind.isPlain_words _ hkind
  obtain ⟨separator, q, rest, hseparator, hq, rfl⟩ := hbegins
  have htail := isSigns_tail hquote hseparator hq
  have hhead : (keyQuote ++ (separator ++ [q]) ++ rest).head?.any isTokenChar = false :=
    head?_stretch (by simp) htail
  -- The pieces of the pass are read backwards, from what it writes to its text.
  have hflip := (Kind.isolated_respellings hkind none before after).flipped_of hw rfl
  have hsource : sourceOf (flipped (Kind.engineKey.respellings none 0 before after)) = signs ++
      ("engine" ++ (keyQuote ++ (separator ++ [q]) ++ rest)) := by
    rw [sourceOf_flipped, Kind.resultOf_respellings hkind]
    exact h.trans (by simp)
  have hafter : resultOf (flipped (Kind.engineKey.respellings none 0 before after)) = after := by
    rw [resultOf_flipped, Kind.sourceOf_respellings hkind]
  obtain ⟨back, hback, htext⟩ := hflip.of_signs hw hsigns hsource
  rw [hback] at hflip hafter
  have hname : ∃ named more, back = named ++ more ∧ resultOf named = "engine" ∧
      sourceOf more = keyQuote ++ (separator ++ [q]) ++ rest := by
    rcases hflip.behind.of_word hw (List.all_eq_true.1 (by decide)) hhead htext with
      ⟨more, hmore, hrest⟩ | ⟨first, found, more, hsplit, hmore, hrest⟩
    · exact ⟨_, more, hmore, resultOf_map_kept _, hrest⟩
    · have hmem : .hit found ∈ flipped (Kind.engineKey.respellings none 0 before after) := by
        rw [hback, hmore]
        simp
      obtain ⟨piece, hpiece, hfound⟩ := List.mem_map.1 hmem
      cases piece with
      | kept c => exact absurd hfound (by simp [Piece.flip])
      | hit old =>
          obtain rfl := Piece.hit.inj hfound
          -- No other word that the pass reads or writes ends the name.
          have hwords : ∀ word ∈ Kind.engineKey.words, word <:+ "engine".toList →
              word = "engine".toList := by decide
          have hwhole := hwords _ (hflip.mem_words (hback ▸ hmem)) ⟨first, hsplit.symm⟩
          rw [hwhole] at hsplit
          obtain rfl := List.self_eq_append_left.1 hsplit
          exact ⟨[_], more, hmore,
            by simp [matched_of_respellings none before after hpiece], hrest⟩
  obtain ⟨named, more, rfl, hnamed, hmore⟩ := hname
  obtain ⟨last, rfl, -⟩ := hflip.behind.behind.of_signs hw htail hmore
  refine ⟨_, ⟨separator, q, resultOf last, hseparator, hq, rfl⟩, hafter.symm.trans ?_⟩
  simp [hnamed]

/-- Where a pass stands, it leaves no key: the key would have stood in its text, and it
would have been renamed. -/
theorem rewritten_ne_key {lead keyQuote text : Text} (hlead : IsLead before lead)
    (hquote : IsOptionalQuote keyQuote) (hbegins : BeginsKey keyQuote text) :
    rewritten hit? before after ≠ lead ++ (keyQuote ++ text) := by
  intro h
  have hsigns : IsSigns (lead ++ keyQuote) :=
    isSigns_append.2 ⟨hlead.isSigns, isSigns_optionalQuote hquote⟩
  rw [← List.append_assoc] at h
  obtain ⟨old, hold, hafter⟩ := beginsKey_of_rewritten hsigns hquote hbegins h
  rw [List.append_assoc] at hafter
  subst hafter
  obtain ⟨key, hkey, rfl, rfl, hvalue⟩ := at?_of_beginsKey hlead hquote hold
  obtain ⟨rest, hrest⟩ := at?_eq_some hkey
  have hrest : key.named "engine" ++ rest = key.lead ++ (key.keyQuote ++ old) := hrest
  have hfound : hit? ⟨before, key.named "engine" ++ rest⟩ =
      some ⟨key.named "engine", key.named "model"⟩ := by
    rw [hrest, hit?, hkey, Option.map_some, if_pos (.inl hvalue)]
  obtain ⟨separator, q, more, -, -, rfl⟩ := hbegins
  have hwritten := @rewritten_hit _ recognises_hit? before rest ⟨key.named "engine", _⟩ hfound
  have hsame : key.named "model" ++ rewritten hit? ((key.named "engine").reverse ++ before) rest =
      key.lead ++ key.keyQuote ++ ("engine" ++ (key.keyQuote ++ (separator ++ q :: more))) := by
    rw [← hrest] at h
    exact hwritten.symm.trans h
  simp only [named_eq, List.append_assoc] at hsame
  have hnames := List.append_cancel_left (List.append_cancel_left hsame)
  exact absurd (List.cons.inj hnames).1 (by decide)

/-- A hit is a key that keeps its name or gets the new one. -/
theorem exists_of_hit? {c : Cursor} {found : Hit} (h : hit? c = some found) :
    ∃ key name, at? c = some key ∧ name ∈ ["engine".toList, "model".toList] ∧
      found = ⟨key.named "engine", key.named name⟩ := by
  obtain ⟨key, hkey, hfound⟩ := Option.map_eq_some_iff.1 h
  refine ⟨key, _, hkey, ?_, hfound.symm⟩
  split <;> simp

/-- A key ends with its separator and the quote of its value, whatever its name. -/
theorem head?_reverse_named {key : EngineKey} (h : IsSeparator key.separator) (name more : Text) :
    ((key.named name).reverse ++ more).head? = (key.separator ++ key.valueQuote).getLast? := by
  have hnamed : key.named name = (key.lead ++ (key.keyQuote ++ (name ++ key.keyQuote))) ++
      (key.separator ++ key.valueQuote) := by simp [named]
  have hne : (key.separator ++ key.valueQuote).reverse ≠ [] := by
    obtain ⟨left, sign, right, -, -, -, hcons⟩ := h
    simp [hcons]
  obtain ⟨d, back, hback⟩ := List.exists_cons_of_ne_nil hne
  rw [hnamed, List.reverse_append, List.append_assoc, ← List.head?_reverse, hback]
  rfl

/-- The same character stands in front of a place of the text and in front of the place that the
pass has come to in what it writes. -/
theorem head?_of_reaches {text seen : Text} (h : Reaches hit? text seen before after) :
    before.head? = seen.head? := by
  induction h with
  | start => rfl
  | kept _ _ _ => rfl
  | hit _ hfound _ =>
      obtain ⟨key, name, hkey, -, heq⟩ := exists_of_hit? hfound
      obtain ⟨-, -, hseparator, -⟩ := of_at?_eq_some hkey
      rw [heq, head?_reverse_named hseparator, head?_reverse_named hseparator]

end Pass

/-! ## Places in what is written for a key -/

section Inside

variable {before rest : Text} {key : EngineKey}

/-- What follows a key does not continue its separator, and a quote in it belongs to the key. -/
theorem value_of_at? (h : at? ⟨before, key.named "engine" ++ rest⟩ = some key) :
    (key.valueQuote ++ rest).head?.any isBlank = false ∧
      optionalQuote (key.valueQuote ++ rest) = (key.valueQuote, rest) := by
  obtain ⟨-, -, more, hsplit, hseparator, hvalue⟩ := at?_eq_some_iff.1 h
  obtain rfl := List.append_cancel_left hsplit
  exact ⟨(separator?_eq_some_iff.1 hseparator).2.1, hvalue⟩

/-- A key is found again in front of another text that begins with the same sign. -/
theorem at?_again_named (h : at? ⟨before, key.named "engine" ++ rest⟩ = some key) {written : Text}
    (hsame : SameSign rest written) : at? ⟨before, key.named "engine" ++ written⟩ = some key := by
  have hnamed : ∀ more, key.named "engine" ++ more =
      key.lead ++ (key.keyQuote ++ ("engine" ++ (key.site.tail ++ more))) := by
    intro more
    simp [named, site]
  obtain ⟨more, hafter, hagain⟩ := Reading.at?_again h
  rw [hnamed, List.append_cancel_left_eq, List.append_cancel_left_eq, List.append_cancel_left_eq,
    List.append_cancel_left_eq] at hafter
  subst hafter
  rw [hnamed]
  exact hagain ⟨rfl, rfl⟩ hsame

/-- Behind the line break in its separator, a key leaves another one only if it hides it. -/
theorem hides_of_separator {front gap lead keyQuote text : Text}
    (h : at? ⟨before, key.named "engine" ++ rest⟩ = some key)
    (hseparator : key.separator = front ++ '\n' :: gap) (hgap : IsGap gap) (hlead : IsGap lead)
    (hquote : IsOptionalQuote keyQuote) (hbegins : BeginsKey keyQuote text)
    (hplace : gap ++
      (key.valueQuote ++ rewritten hit? ((key.named "engine").reverse ++ before) rest) =
      lead ++ (keyQuote ++ text)) : key.Hides rest := by
  generalize hwritten : rewritten hit? ((key.named "engine").reverse ++ before) rest =
    written at hplace
  have hsame : SameSign rest written := hwritten ▸ sameSign_rewritten _ rest
  obtain ⟨hblank, hvalue⟩ := value_of_at? (at?_again_named h hsame)
  -- Behind the same whitespace stand the same quote and the same text.
  have hlengths := congrArg blanks hplace
  rw [blanks_gap hgap hblank, blanks_gap hlead (hbegins.head? hquote).1] at hlengths
  subst hlengths
  have hquotes := congrArg optionalQuote (List.append_cancel_left hplace)
  rw [hvalue, optionalQuote_append_eq hquote hbegins.isQuote_head?] at hquotes
  obtain ⟨rfl, rfl⟩ := Prod.mk.inj hquotes
  obtain ⟨old, hold, rfl⟩ := beginsKey_of_rewritten isSigns_nil hquote hbegins hwritten
  refine ⟨hold, ⟨front, gap, hseparator, hgap⟩, fun hnone hlast => ?_⟩
  -- Where the key ends with a line break, the pass would have found the other one.
  obtain ⟨-, -, hsigned, -⟩ := of_at?_eq_some h
  have hline : IsLead ((key.named "engine").reverse ++ before) [] := by
    refine .inl ⟨isGap_nil, ?_⟩
    rw [head?_reverse_named hsigned, hnone, List.append_nil, hlast]
    rfl
  rw [hnone] at hbegins
  exact rewritten_ne_key hline (.inl rfl) hbegins hwritten

/-- A line break is no quote. -/
theorem not_mem_optionalQuote {quote : Text} (h : IsOptionalQuote quote) : '\n' ∉ quote := by
  rcases h with rfl | ⟨q, hq, rfl⟩
  · exact List.not_mem_nil
  · intro hmem
    obtain rfl := List.mem_singleton.1 hmem
    exact absurd hq (by decide)

/-- A key that is left behind a line break in what is written for a key is hidden by it. -/
theorem hides_of_line {name first second lead keyQuote text : Text}
    (h : at? ⟨before, key.named "engine" ++ rest⟩ = some key)
    (hname : name ∈ ["engine".toList, "model".toList])
    (hwritten : rewritten hit? before (key.named "engine" ++ rest) =
      key.named name ++ rewritten hit? ((key.named "engine").reverse ++ before) rest)
    (hsplit : key.named name = first ++ '\n' :: second) (hlead : IsGap lead)
    (hquote : IsOptionalQuote keyQuote) (hbegins : BeginsKey keyQuote text)
    (hplace : second ++ rewritten hit? ((key.named "engine").reverse ++ before) rest =
      lead ++ (keyQuote ++ text)) : key.Hides rest := by
  obtain ⟨hkeyLead, hkeyQuote, ⟨left, sign, right, hleft, hsign, hright, hseparator⟩, hvalue⟩ :=
    of_at?_eq_some h
  have hkeyLead : IsLead before key.lead := hkeyLead
  have hparts : key.named name = key.lead ++ ((key.keyQuote ++ (name ++ key.keyQuote)) ++
      (left ++ ([sign] ++ (right ++ key.valueQuote)))) := by simp [named, hseparator]
  have hmem : ∀ {front more : Text}, '\n' ∈ front ++ '\n' :: more :=
    List.mem_append_right _ List.mem_cons_self
  rcases append_eq_append_cons (hparts.symm.trans hsplit) with
    ⟨more, hinside, -⟩ | ⟨inner, -, hinner⟩
  · -- In the lead: the other key would stand where the pass stands.
    rw [hinside] at hkeyLead
    rw [hsplit, List.append_assoc, List.cons_append, hplace] at hwritten
    exact absurd (hwritten.trans (by simp))
      (rewritten_ne_key (hkeyLead.extend hlead) hquote hbegins)
  rcases append_eq_append_cons hinner with ⟨more, hinside, -⟩ | ⟨inner, -, hinner⟩
  · -- In the name: there is none.
    have hnames : ∀ name ∈ ["engine".toList, "model".toList], '\n' ∉ name := by decide
    have hquotes := not_mem_optionalQuote hkeyQuote
    exact absurd (hinside ▸ hmem) (by simp [hquotes, hnames name hname])
  rcases append_eq_append_cons hinner with ⟨more, hinside, rfl⟩ | ⟨inner, -, hinner⟩
  · -- In front of the sign: the other key would begin with the sign.
    exfalso
    obtain ⟨hblank, c, behind, hbehind, hc⟩ := hbegins.head? hquote
    have hmore : IsGap more := fun d hd =>
      hleft d (hinside ▸ List.mem_append_right _ (List.mem_cons_of_mem _ hd))
    have hsigned : isBlank sign = false := by rcases hsign with rfl | rfl <;> decide
    rw [hbehind] at hblank hplace
    simp only [List.append_assoc, List.singleton_append] at hplace
    obtain ⟨-, rfl, -⟩ := hmore.unique hlead hsigned hblank hplace
    rcases hsign with rfl | rfl <;> exact absurd hc (by decide)
  rcases append_eq_append_cons hinner with ⟨more, hinside, -⟩ | ⟨inner, -, hinner⟩
  · -- The sign itself is no line break.
    obtain rfl := List.mem_singleton.1 (hinside ▸ hmem : '\n' ∈ [sign])
    exact absurd hsign (by decide)
  rcases append_eq_append_cons hinner with ⟨gap, hinside, rfl⟩ | ⟨inner, -, hinner⟩
  · -- Behind the sign: the key hides the other one.
    have hgap : IsGap gap := fun d hd =>
      hright d (hinside ▸ List.mem_append_right _ (List.mem_cons_of_mem _ hd))
    have hbreak : key.separator = (left ++ sign :: inner) ++ '\n' :: gap := by
      simp [hseparator, hinside]
    exact hides_of_separator h hbreak hgap hlead hquote hbegins (by simpa using hplace)
  · exact absurd (hinner ▸ hmem) (not_mem_optionalQuote hvalue)

/-- No key begins behind a character in what is written for a key, except at a line break: the
opening characters stand in front. -/
theorem opensKey_inside {name first second : Text} {d : Char}
    (h : at? ⟨before, key.named "engine" ++ rest⟩ = some key)
    (hname : name ∈ ["engine".toList, "model".toList])
    (hsplit : key.named name = first ++ d :: second) (hfirst : first ≠ []) :
    opensKey d = false := by
  obtain ⟨hlead, hquote, hseparator, hvalue⟩ := of_at?_eq_some h
  rw [named_eq] at hsplit
  have hmem : ∃ gap, IsGap gap ∧ d ∈ gap ++ (key.keyQuote ++ (name ++ (key.keyQuote ++
      (key.separator ++ key.valueQuote)))) := by
    rcases hlead with ⟨hgap, -⟩ | ⟨e, gap, -, hgap, hcons⟩
    · refine ⟨key.lead, hgap, ?_⟩
      rw [hsplit]
      exact List.mem_append_right _ List.mem_cons_self
    · obtain ⟨e', first, rfl⟩ := List.exists_cons_of_ne_nil hfirst
      rw [hcons, List.cons_append, List.cons_append] at hsplit
      refine ⟨gap, hgap, ?_⟩
      rw [(List.cons.inj hsplit).2]
      exact List.mem_append_right _ List.mem_cons_self
  obtain ⟨gap, hgap, hmem⟩ := hmem
  cases hd : opensKey d with
  | false => rfl
  | true =>
      exfalso
      obtain ⟨hchar, -, hblank, hnoquote, hsigns⟩ := opensKey_class hd
      have hquotes : ∀ {quote : Text}, IsOptionalQuote quote → d ∉ quote := by
        rintro quote (rfl | ⟨q, hq, rfl⟩) hmem
        · exact List.not_mem_nil hmem
        · obtain rfl := List.mem_singleton.1 hmem
          exact absurd (hnoquote.symm.trans hq) (by simp)
      have hgaps : ∀ {gap : Text}, IsGap gap → d ∉ gap := fun hgap hmem =>
        absurd (hblank.symm.trans (hgap d hmem)) (by simp)
      have hnames : ∀ name ∈ ["engine".toList, "model".toList], name.all isNameChar = true := by
        decide
      have hnot : d ∉ name := fun hmem =>
        absurd (hchar.symm.trans (List.all_eq_true.1 (hnames name hname) d hmem)) (by simp)
      have hsign : d ∉ key.separator := by
        obtain ⟨left, sign, right, hleft, hsign, hright, hcons⟩ := hseparator
        rw [hcons]
        intro hmem
        rcases List.mem_append.1 hmem with hmem | hmem
        · exact hgaps hleft hmem
        · rcases List.mem_cons.1 hmem with rfl | hmem
          · rcases hsign with rfl | rfl <;> exact absurd hsigns (by decide)
          · exact hgaps hright hmem
      simp [hgaps hgap, hquotes hquote, hquotes hvalue, hnot, hsign] at hmem

end Inside

/-! ## Exactly the hidden keys are left -/

/-- Nothing is found at a character that opens no key, unless a line begins there. -/
theorem hit?_eq_none {before after : Text} {d : Char}
    (hline : before.head?.all (· == '\n') = false) (hd : opensKey d = false) :
    hit? ⟨before, d :: after⟩ = none := by
  have hstart : atLineStart ⟨before, d :: after⟩ = false := hline
  have hnone : at? ⟨before, d :: after⟩ = none := by simp [at?, hstart, behindOpening?, hd]
  rw [hit?, hnone, Option.map_none]

/-- Behind a key that hides another one, no line begins. -/
theorem head?_end_ne_line {key : EngineKey} (hseparator : IsSeparator key.separator)
    (hvalue : IsOptionalQuote key.valueQuote)
    (hend : key.valueQuote = [] → key.separator.getLast? ≠ some '\n') (before : Text) :
    ((key.named "engine").reverse ++ before).head?.all (· == '\n') = false := by
  rw [head?_reverse_named hseparator]
  rcases hvalue with hnil | ⟨p, hp, hcons⟩
  · have hne := hend hnil
    rw [hnil, List.append_nil]
    cases hlast : key.separator.getLast? with
    | none =>
        obtain ⟨left, sign, right, -, -, -, hcons⟩ := hseparator
        rw [List.getLast?_eq_none_iff, hcons] at hlast
        exact absurd hlast (by simp)
    | some c =>
        rw [Option.all_some, beq_eq_false_iff_ne]
        rintro rfl
        exact hne hlast
  · rw [hcons, List.getLast?_concat, Option.all_some, beq_eq_false_iff_ne]
    rintro rfl
    exact absurd hp (by decide)

/-- A key that is hidden is left. -/
theorem pending_of_hides {text seen before rest : Text} {key : EngineKey}
    (hreaches : Reaches hit? text seen before (key.named "engine" ++ rest))
    (h : at? ⟨before, key.named "engine" ++ rest⟩ = some key) (hhides : key.Hides rest) :
    Pending (rewritten hit? [] text) := by
  obtain ⟨-, -, hseparator, hvalue⟩ := of_at?_eq_some h
  obtain ⟨⟨separator, q, more, hsigned, hq, rfl⟩, ⟨front, gap, hbreak, hgap⟩, hend⟩ := hhides
  have hfound : ∃ name, hit? ⟨before, key.named "engine" ++ ("engine" ++ (key.valueQuote ++
      (separator ++ q :: more)))⟩ = some ⟨key.named "engine", key.named name⟩ := by
    rw [hit?, h]
    exact ⟨_, rfl⟩
  obtain ⟨name, hfound⟩ := hfound
  have hline := head?_end_ne_line hseparator hvalue hend before
  -- The pass goes over the name, since no line begins there, and writes the signs behind it in
  -- any case.
  have hname := @rewritten_stretch hit? ((key.named "engine").reverse ++ before) "engine".toList
    (key.valueQuote ++ (separator ++ q :: more)) fun first second hsplit hne => by
      obtain ⟨d, second, rfl⟩ := List.exists_cons_of_ne_nil hne
      have hletters : "engine".toList.all (fun d => !opensKey d && !(d == '\n')) = true := by
        decide
      have hall : ∀ d ∈ "engine".toList, opensKey d = false ∧ (d == '\n') = false :=
        fun d hd => by
        simpa using List.all_eq_true.1 hletters d hd
      refine hit?_eq_none ?_ (hall d (hsplit ▸ List.mem_append_right _ List.mem_cons_self)).1
      rcases List.eq_nil_or_concat first with rfl | ⟨front, e, rfl⟩
      · exact hline
      · rw [List.concat_eq_append] at hsplit ⊢
        rw [List.reverse_append, List.append_assoc]
        exact (hall e (hsplit ▸ List.mem_append_left _
          (List.mem_append_right _ List.mem_cons_self))).2
  have hsigns := isSigns_tail hvalue hsigned hq
  obtain ⟨last, hlast⟩ := rewritten_signs hsigns ("engine".toList.reverse ++
    ((key.named "engine").reverse ++ before)) more
  simp only [List.append_assoc, List.singleton_append] at hlast
  rw [hreaches.rewritten_eq recognises_hit?,
    @rewritten_hit _ recognises_hit? before _ ⟨key.named "engine", key.named name⟩ hfound,
    hname, hlast]
  refine ⟨seen.reverse ++
    (key.lead ++ (key.keyQuote ++ (name ++ (key.keyQuote ++ (front ++ ['\n']))))), gap,
      key.valueQuote, _, ?_, ?_, hgap, hvalue, separator, q, last, hsigned, hq, rfl⟩
  · simp only [named_eq, hbreak, List.append_assoc, List.cons_append, List.nil_append]
  · simp only [← List.append_assoc, List.getLast?_concat]
    rfl

end EngineKey

namespace Rule

open EngineKey

/-- One pass of the rule for engine keys leaves a key with a quoted value exactly if it takes a
key that hides another one. -/
theorem engine_pending_iff (radius : Option Nat) (text : Text) :
    Pending ((Rule.ofKind .engineKey).apply radius text) ↔
      ∃ seen before rest, ∃ key : EngineKey,
        Reaches hit? text seen before (key.named "engine" ++ rest) ∧
        at? ⟨before, key.named "engine" ++ rest⟩ = some key ∧ key.Hides rest := by
  have happly : (Rule.ofKind .engineKey).apply radius text = rewritten hit? [] text := rfl
  rw [happly]
  constructor
  · intro hpending
    obtain ⟨c, hsource, key, hkey, hvalue⟩ := hpending.exists_at?
    cases located recognises_hit? hsource with
    | @kept seen before after hreaches _ =>
        obtain ⟨hlead, hquote, rest, hbegins, hafter⟩ := beginsKey_of_at? hkey hvalue
        have hlead := hlead.congr (head?_of_reaches hreaches).symm
        exact absurd hafter (rewritten_ne_key hlead hquote hbegins)
    | @inside seen before rest first second found hreaches hfound hsplit hne =>
        obtain ⟨taken, name, htaken, hname, rfl⟩ := exists_of_hit? hfound
        obtain ⟨hlead, hquote, behind, hbegins, hplace⟩ := beginsKey_of_at? hkey hvalue
        have hwritten := @rewritten_hit _ recognises_hit? before rest
          ⟨taken.named "engine", taken.named name⟩ hfound
        refine ⟨seen, before, rest, taken, hreaches, htaken, ?_⟩
        rcases List.eq_nil_or_concat first with rfl | ⟨front, e, rfl⟩
        · have hlead := hlead.congr (head?_of_reaches hreaches).symm
          rw [hsplit, List.nil_append, hplace] at hwritten
          exact absurd hwritten (rewritten_ne_key hlead hquote hbegins)
        · rw [List.concat_eq_append] at hsplit hlead
          rw [List.reverse_append] at hlead
          rcases hlead with ⟨hgap, hline⟩ | ⟨d, gap, hd, -, hcons⟩
          · obtain rfl : e = '\n' := by simpa using hline
            rw [List.append_assoc] at hsplit
            exact hides_of_line htaken hname hwritten hsplit hgap hquote hbegins hplace
          · obtain ⟨d', second, rfl⟩ := List.exists_cons_of_ne_nil hne
            rw [hcons] at hplace
            obtain ⟨rfl, -⟩ := List.cons.inj hplace
            have hclosed := opensKey_inside htaken hname hsplit (by simp)
            exact absurd (hd.symm.trans hclosed) (by simp)
  · rintro ⟨seen, before, rest, key, hreaches, hkey, hhides⟩
    exact pending_of_hides hreaches hkey hhides

/-- A key in the line behind another one is left. -/
theorem engine_pending_nested :
    (Rule.ofKind .engineKey).apply none "engine:\n  engine: \"x\"" =
      "engine:\n  engine: \"x\"".toList ∧
      Pending "engine:\n  engine: \"x\"" := by
  refine ⟨by decide +kernel, "engine:\n".toList, "  ".toList, [], "engine: \"x\"".toList,
    by decide, by decide, List.all_eq_true.1 (by decide : [' ', ' '].all isBlank = true),
    .inl rfl, ": ".toList, '"', "x\"".toList, ⟨[], ':', [' '], isGap_nil, .inl rfl,
      List.all_eq_true.1 (by decide : [' '].all isBlank = true), rfl⟩, by decide, by decide⟩

end Rule

end SdkUpgrade

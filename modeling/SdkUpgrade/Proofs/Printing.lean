import SdkUpgrade.Proofs.Commands
import SdkUpgrade.Proofs.Names
import SdkUpgrade.Proofs.Pass

/-!
# What is printed and what is written

An upgrade prints its result, or writes it to a file. The file gets the result as it is,
but escape sequences are left out of what is printed. `Listing.printed_eq_self_iff` says
which texts are printed as they are, and `Command.prints_written_iff` that the two ways of
output agree on exactly these.
-/

namespace SdkUpgrade

/-- Different texts have different bytes. -/
theorem Utf8.encode_inj {first second : Text} (h : encode first = encode second) :
    first = second := by
  induction first generalizing second with
  | nil =>
      cases second with
      | nil => rfl
      | cons d second =>
          rw [encode, encode, List.flatMap_nil, List.flatMap_cons] at h
          exact absurd (List.append_eq_nil_iff.1 h.symm).1 String.utf8EncodeChar_ne_nil
  | cons c first ih =>
      cases second with
      | nil =>
          rw [encode, encode, List.flatMap_nil, List.flatMap_cons] at h
          exact absurd (List.append_eq_nil_iff.1 h).1 String.utf8EncodeChar_ne_nil
      | cons d second =>
          rw [encode, encode, List.flatMap_cons, List.flatMap_cons] at h
          -- The first character can be read off the bytes.
          have hbytes := congrArg (fun bytes => bytes.toByteArray.utf8DecodeChar? 0) h
          simp only [List.toByteArray_append, ByteArray.utf8DecodeChar?_utf8EncodeChar_append,
            Option.some.injEq] at hbytes
          subst hbytes
          rw [ih (List.append_cancel_left h)]

namespace Listing

/-- An escape sequence: escape, a bracket, parameters and an ASCII letter. -/
def IsEscape (escape : Text) : Prop :=
  ∃ parameters last, escape = '\x1b' :: '[' :: (parameters ++ [last]) ∧
    (∀ c ∈ parameters, isEscapeParameter c = true) ∧ last.isAlpha = true

theorem isEscapeParameter_of_isAlpha {c : Char} (h : c.isAlpha = true) :
    isEscapeParameter c = false := by
  have hletter := toNat_of_isAlpha h
  simp only [isEscapeParameter, Bool.or_eq_false_iff, beq_eq_false_iff_ne]
  refine ⟨⟨?_, ?_⟩, ?_⟩
  · cases hdigit : c.isDigit with
    | false => rfl
    | true =>
        have hcode := toNat_of_isDigit hdigit
        omega
  · rintro rfl
    exact absurd h (by decide)
  · rintro rfl
    exact absurd h (by decide)

/-- Escape sequences are recognised, and nothing is put in their place. -/
theorem escapeHit?_eq_some_iff {c : Cursor} {hit : Hit} :
    escapeHit? c = some hit ↔
      IsEscape hit.matched ∧ hit.replacement = [] ∧ hit.matched <+: c.after := by
  constructor
  · intro h
    unfold escapeHit? at h
    split at h
    · rename_i rest hafter
      split at h
      · rename_i last more hmore
        split at h
        · rename_i hlast
          obtain rfl := Option.some.inj h
          refine ⟨⟨_, last, rfl, fun d hd => mem_takeWhile hd, hlast⟩, rfl, more, ?_⟩
          have hrest : rest.takeWhile isEscapeParameter ++ last :: more = rest := by
            rw [← hmore, List.takeWhile_append_dropWhile]
          rw [hafter, ← hrest]
          simp [hrest]
        · exact absurd h (by simp)
      · exact absurd h (by simp)
    · exact absurd h (by simp)
  · obtain ⟨matched, replacement⟩ := hit
    rintro ⟨⟨parameters, last, rfl, hparameters, hlast⟩, rfl, rest, hrest⟩
    have hstop : (last :: rest).head?.any isEscapeParameter = false :=
      isEscapeParameter_of_isAlpha hlast
    have hafter : c.after = '\x1b' :: '[' :: (parameters ++ last :: rest) := by
      rw [← hrest]
      simp
    unfold escapeHit?
    rw [hafter]
    simp only [dropWhile_stretch hparameters hstop, takeWhile_stretch hparameters hstop,
      if_pos hlast]
    rfl

theorem recognises_escapeHit? : Recognises escapeHit? := by
  intro c hit h
  obtain ⟨⟨parameters, last, hmatched, -⟩, -, hbegins⟩ := escapeHit?_eq_some_iff.1 h
  exact ⟨by simp [hmatched], hbegins⟩

/-- What is printed is not longer than the text. -/
theorem length_rewritten_le (before after : Text) :
    (rewritten escapeHit? before after).length ≤ after.length := by
  induction before, after using pass_induction recognises_escapeHit? with
  | nil before => simp
  | kept before c after hnone ih =>
      rw [rewritten_kept hnone]
      simpa using ih
  | hit before hit rest hsome ih =>
      rw [rewritten_hit recognises_escapeHit? hsome, (escapeHit?_eq_some_iff.1 hsome).2.1]
      simp only [List.nil_append, List.length_append]
      omega

/-- A text that is printed as it is has no escape sequence: each of them would be left out. -/
theorem not_infix_of_rewritten_eq {escape : Text} (hescape : IsEscape escape)
    (before after : Text) (h : rewritten escapeHit? before after = after) :
    ¬ escape <:+: after := by
  induction before, after using pass_induction recognises_escapeHit? with
  | nil before =>
      obtain ⟨parameters, last, rfl, -⟩ := hescape
      simp
  | kept before c after hnone ih =>
      rw [rewritten_kept hnone] at h
      intro hpart
      rcases List.infix_cons_iff.1 hpart with hbegins | hpart
      · have hsome : escapeHit? ⟨before, c :: after⟩ = some ⟨escape, []⟩ :=
          escapeHit?_eq_some_iff.2 ⟨hescape, rfl, hbegins⟩
        exact absurd (hnone.symm.trans hsome) (by simp)
      · exact ih (List.cons.inj h).2 hpart
  | hit before hit rest hsome ih =>
      have hlength := congrArg List.length h
      rw [rewritten_hit recognises_escapeHit? hsome, (escapeHit?_eq_some_iff.1 hsome).2.1,
        List.nil_append, List.length_append] at hlength
      have hshorter := length_rewritten_le (hit.matched.reverse ++ before) rest
      have hpos := List.length_pos_iff.2 (recognises_escapeHit? _ _ hsome).1
      omega

/-- A text is printed as it is exactly if it has no escape sequence. -/
theorem printed_eq_self_iff {text : Text} :
    printed text = text ↔ ∀ escape, IsEscape escape → ¬ escape <:+: text := by
  constructor
  · intro h escape hescape
    exact not_infix_of_rewritten_eq hescape [] text h
  · intro h
    have hnone : ∀ passed rest, text = passed ++ rest →
        escapeHit? ⟨passed.reverse ++ [], rest⟩ = none := by
      intro passed rest hsplit
      refine Option.eq_none_iff_forall_ne_some.2 fun hit hsome => ?_
      obtain ⟨hescape, -, hbegins⟩ := escapeHit?_eq_some_iff.1 hsome
      exact h _ hescape (hbegins.isInfix.trans
        (hsplit ▸ (List.suffix_append passed rest).isInfix))
    unfold printed scan
    rw [pieces_eq_map_kept [] text hnone, List.flatMap_map]
    simp [Piece.result]

/-- A text without escape characters is printed as it is. -/
theorem printed_eq_self {text : Text} (h : '\x1b' ∉ text) : printed text = text := by
  rw [printed_eq_self_iff]
  rintro escape ⟨parameters, last, rfl, -⟩ hpart
  exact h (hpart.subset List.mem_cons_self)

end Listing

namespace Command

section Host

variable [Host] {files : FileTree} {stdin : Utf8.Bytes} {options : UpgradeOptions}
  {config : Config} {source : Text} {path : Path}

/-- An upgrade without an output file that succeeds prints its result without escape sequences. -/
theorem Ready.stdout_eq (h : Ready files stdin options config source) (hout : options.out = none)
    (hzero : (run files stdin (.upgrade options)).exitCode = 0) :
    (run files stdin (.upgrade options)).stdout =
      Listing.printed ((options.engine config).run source).text := by
  have hdelivers := h.exitCode_eq_zero_iff.1 hzero
  rw [h.run_eq, finish_delivered _ _ hdelivers, hout]
  rw [hout] at hdelivers
  simp only [deliver, print, show Host.printing _ = none from hdelivers]

/-- An upgrade that can begin writes its result to any file that can be opened, if the
result can be encoded. -/
theorem Ready.exitCode_written_iff (h : Ready files stdin options config source)
    (hpath : Writable files path) :
    (run files stdin (.upgrade { options with out := some path })).exitCode = 0 ↔
      Host.writing ((options.engine config).run source).text = none := by
  have hready : Ready files stdin { options with out := some path } config source :=
    ⟨h.loads, h.reads, h.known⟩
  exact hready.exitCode_eq_zero_iff.trans (and_iff_right hpath)

theorem Ready.read_written (h : Ready files stdin options config source)
    (hzero : (run files stdin (.upgrade { options with out := some path })).exitCode = 0) :
    (run files stdin (.upgrade { options with out := some path })).files.read path =
      .ok (Utf8.encode ((options.engine config).run source).text) := by
  have hready : Ready files stdin { options with out := some path } config source :=
    ⟨h.loads, h.reads, h.known⟩
  obtain ⟨-, location, hresolve, hfile, -⟩ := hready.of_exitCode_eq_zero hzero rfl
  exact FileTree.read_eq_ok_iff.2 ⟨location, hresolve, hfile⟩

/-- What an upgrade prints and what it writes to a file come from the same text. If it succeeds
without an output file, it succeeds with one that can be opened exactly if the text that the
engine of its settings makes of its input can be encoded, and then writes this text. It prints the
text without escape sequences. So it writes what it prints exactly if the text can be encoded and
has no escape sequence. -/
theorem prints_written_iff (files : FileTree) (stdin : Utf8.Bytes) (options : UpgradeOptions)
    (path : Path) (hout : options.out = none)
    (hzero : (run files stdin (.upgrade options)).exitCode = 0) (hpath : Writable files path) :
    let shown := run files stdin (.upgrade options)
    let written := run files stdin (.upgrade { options with out := some path })
    ∃ config source, Loads files options.config config ∧ Reads files stdin options.input source ∧
      let text := ((options.engine config).run source).text
      shown.stdout = Listing.printed text ∧
        (written.exitCode = 0 ↔ Host.writing text = none) ∧
        (written.exitCode = 0 → written.files.read path = .ok (Utf8.encode text)) ∧
        (written.exitCode = 0 ∧ written.files.read path = .ok (Utf8.encode shown.stdout) ↔
          Host.writing text = none ∧ ∀ escape, Listing.IsEscape escape → ¬ escape <:+: text) := by
  intro shown written
  obtain ⟨config, source, h, -⟩ := exitCode_eq_zero_iff.1 hzero
  have hshown : shown.stdout = Listing.printed ((options.engine config).run source).text :=
    h.stdout_eq hout hzero
  have hexit := h.exitCode_written_iff hpath
  refine ⟨config, source, h.loads, h.reads, hshown, hexit, h.read_written, ?_⟩
  rw [← hexit, ← Listing.printed_eq_self_iff, hshown]
  refine and_congr_right fun hwritten => ?_
  rw [show written.files.read path = _ from h.read_written hwritten, Except.ok.injEq]
  exact ⟨fun hsame => (Utf8.encode_inj hsame).symm, fun hsame => congrArg _ hsame.symm⟩

theorem ready_stdin {text : Text} (h : Host.reading stdin = .ok text) :
    Ready files stdin {} {} text :=
  ⟨rfl, h, by simp⟩

end Host

/-- An escape character that begins no escape sequence is printed and written alike. -/
theorem prints_written_iff_open :
    let _ : Host := .blank
    let files : FileTree := ⟨[], []⟩
    let path : Path := ⟨.here, ["out"]⟩
    let text : Text := "\x1b[0;-"
    let shown := run files (Utf8.encode text) (.upgrade {})
    let written := run files (Utf8.encode text) (.upgrade { out := some path })
    shown.exitCode = 0 ∧ Writable files path ∧ written.exitCode = 0 ∧
      written.files.read path = .ok (Utf8.encode shown.stdout) := by
  intro host files path text shown written
  have hready : Ready files (Utf8.encode text) {} {} text := ready_stdin rfl
  have hzero : shown.exitCode = 0 := hready.exitCode_eq_zero_iff.2 rfl
  obtain ⟨config, source, hloads, hreads, -, -, -, hsame⟩ :=
    prints_written_iff files (Utf8.encode text) {} path rfl hzero writable_out
  obtain ⟨rfl, rfl⟩ := hready.unique ⟨hloads, hreads, hready.known⟩
  refine ⟨hzero, writable_out, hsame.2 ⟨rfl, Listing.printed_eq_self_iff.1 ?_⟩⟩
  decide

/-- An escape sequence is written to a file, but not printed. -/
theorem prints_less_than_written :
    let _ : Host := .blank
    let files : FileTree := ⟨[], []⟩
    let path : Path := ⟨.here, ["out"]⟩
    let text : Text := "\x1b[0mx"
    let shown := run files (Utf8.encode text) (.upgrade {})
    let written := run files (Utf8.encode text) (.upgrade { out := some path })
    shown.exitCode = 0 ∧ Writable files path ∧ written.exitCode = 0 ∧
      written.files.read path = .ok (Utf8.encode text) ∧ shown.stdout = "x".toList ∧
      written.files.read path ≠ .ok (Utf8.encode shown.stdout) := by
  intro host files path text shown written
  have hready : Ready files (Utf8.encode text) {} {} text := ready_stdin rfl
  have hzero : shown.exitCode = 0 := hready.exitCode_eq_zero_iff.2 rfl
  have hrun : (UpgradeOptions.engine {} {}).run text = ⟨text, []⟩ := by decide
  have hexit : written.exitCode = 0 := (hready.exitCode_written_iff writable_out).2 rfl
  have hread := hready.read_written hexit
  have hstdout : shown.stdout = "x".toList := by
    rw [hready.stdout_eq rfl hzero, hrun]
    decide
  rw [hrun] at hread
  refine ⟨hzero, writable_out, hexit, hread, hstdout, fun hsame => ?_⟩
  have htext := Utf8.encode_inj (Except.ok.inj (hread.symm.trans hsame))
  rw [hstdout] at htext
  exact absurd htext (by decide)

end Command

end SdkUpgrade

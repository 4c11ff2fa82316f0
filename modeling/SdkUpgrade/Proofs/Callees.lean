import Mathlib.Data.List.Forall2
import Mathlib.Data.List.TakeWhile
import SdkUpgrade.Proofs.Readers
import SdkUpgrade.Source.Call

/-!
# Which call is open at a place

The walk back from a place keeps three numbers: how many closing brackets of every kind still
await their partners. Only the number for parentheses matters, so the walk is one with a single
number, `beforeOpen?_eq`. `OpensAt` says the same by counting: a parenthesis is open if more
parentheses open than close from it up to the place. The walk stops at the innermost one, the last
index of this kind, and reads the callee off the 200 characters in front of it. `calleeAt_eq_iff`
states this for every text and every offset. It also says what has no influence: the characters
from the offset on, and which brackets of other kinds stand in the text.
-/

namespace SdkUpgrade

namespace Source

open Text

/-! ## What is to be found -/

/-- The characters of a text from one index up to another. -/
def slice (text : Text) (start stop : Nat) : Text :=
  (text.take stop).drop start

/-- The parenthesis at index `i` is open at index `n`: from the one to the other, more parentheses
open than close. -/
def OpensAt (text : Text) (n i : Nat) : Prop :=
  text[i]? = some '(' ∧ (slice text i n).count ')' < (slice text i n).count '('

/-- The last index in front of `n` whose parenthesis is open there. -/
structure Innermost (text : Text) (n i : Nat) : Prop where
  lt : i < n
  opens : OpensAt text n i
  last : ∀ j, j < n → OpensAt text n j → j ≤ i

/-- The longest run of name characters that ends a text, whitespace behind it apart. -/
structure EndsInRun (text run : Text) : Prop where
  chars : ∀ c ∈ run, isNameChar c = true
  split : ∃ front gap, text = front ++ run ++ gap ∧ IsGap gap ∧
    (front ++ run).getLast?.any isBlank = false ∧ front.getLast?.any isNameChar = false

/-- The name in a run of name characters: what follows in it from its first character on that may
begin a name. -/
def NameIn (run : Text) : Option Text → Prop
  | none => ∀ c ∈ run, isNameStart c = false
  | some name => ∃ lead, run = lead ++ name ∧ (∀ c ∈ lead, isNameStart c = false) ∧
      name.head?.any isNameStart = true

/-! ## One number is enough -/

/-- What stands in front of the nearest opening parenthesis without a partner, the first argument
being the number of closing parentheses that still await theirs. -/
def beforeParenthesis? : Nat → Text → Option Text
  | _, [] => none
  | depth, c :: before =>
      if c = ')' then beforeParenthesis? (depth + 1) before
      else if c = '(' then
        match depth with
        | 0 => some before
        | depth + 1 => beforeParenthesis? depth before
      else beforeParenthesis? depth before

theorem Bracket.closedBy?_eq_round_iff {c : Char} : closedBy? c = some round ↔ c = ')' := by
  unfold closedBy?
  split <;> simp_all

theorem Bracket.openedBy?_eq_round_iff {c : Char} : openedBy? c = some round ↔ c = '(' := by
  unfold openedBy?
  split <;> simp_all

/-- No character both opens and closes a bracket. -/
theorem Bracket.openedBy?_of_closedBy? {c : Char} {bracket : Bracket}
    (h : closedBy? c = some bracket) : openedBy? c = none := by
  unfold closedBy? at h
  split at h
  · rfl
  · rfl
  · rfl
  · exact absurd h (by simp)

theorem Depths.round_set (depths : Depths) (bracket : Bracket) (depth : Nat) :
    (depths.set bracket depth).round = if bracket = .round then depth else depths.round := by
  cases bracket <;> rfl

/-- The walk only heeds the number of parentheses: whatever other brackets are open or closed on
the way, it ends at the same place. -/
theorem beforeOpen?_eq (depths : Depths) (before : Text) :
    beforeOpen? depths before = beforeParenthesis? depths.round before := by
  induction before generalizing depths with
  | nil => rfl
  | cons c before ih =>
      have hclose := @Bracket.closedBy?_eq_round_iff c
      have hopen := @Bracket.openedBy?_eq_round_iff c
      rw [beforeOpen?, beforeParenthesis?.eq_def]
      cases hclosed : Bracket.closedBy? c with
      | some bracket =>
          have hnot : c ≠ '(' := by
            rw [ne_eq, ← hopen, Bracket.openedBy?_of_closedBy? hclosed]
            simp
          rw [hclosed, Option.some.injEq] at hclose
          simp only [ih, Depths.round_set, ← hclose, hnot, if_false]
          split
          · rename_i hround
            rw [hround]
            rfl
          · rfl
      | none =>
          have hnot : c ≠ ')' := by
            rw [ne_eq, ← hclose, hclosed]
            simp
          cases hopened : Bracket.openedBy? c with
          | none =>
              have hother : c ≠ '(' := by
                rw [ne_eq, ← hopen, hopened]
                simp
              simp only [ih, hnot, hother, if_false]
          | some bracket =>
              rw [hopened, Option.some.injEq] at hopen
              simp only [ih, Depths.round_set, ← hopen, hnot, if_false]
              cases bracket with
              | round => cases hdepth : depths.round <;> simp [Depths.get, hdepth]
              | square => cases depths.get .square <;> simp
              | curly => cases depths.get .curly <;> simp

theorem enclosingCallee?_eq_bind (before : Text) :
    enclosingCallee? before = (beforeParenthesis? 0 before).bind calleeBefore? := by
  rw [enclosingCallee?, beforeOpen?_eq]

/-! ## The walk -/

/-- Nowhere on the way back over `near` more parentheses open than close, if `depth` closing ones
stand in front of the way. -/
def Covered (depth : Nat) (near : Text) : Prop :=
  ∀ part, part <+: near → part.count '(' ≤ depth + part.count ')'

section Walk

variable {depth deeper : Nat} {c : Char} {near before rest : Text}

/-- What the walk does at one character: at a closing parenthesis one partner more is awaited, at
an opening one a partner is found or the walk ends, and all other characters are passed over. -/
theorem beforeParenthesis?_cons_cases (depth : Nat) (c : Char) :
    c = ')' ∧ (∀ before, beforeParenthesis? depth (c :: before) =
      beforeParenthesis? (depth + 1) before) ∨
    c = '(' ∧ depth = 0 ∧ (∀ before, beforeParenthesis? depth (c :: before) = some before) ∨
    (∃ less, c = '(' ∧ depth = less + 1 ∧
      ∀ before, beforeParenthesis? depth (c :: before) = beforeParenthesis? less before) ∨
    c ≠ ')' ∧ c ≠ '(' ∧ ∀ before, beforeParenthesis? depth (c :: before) =
      beforeParenthesis? depth before := by
  by_cases hclose : c = ')'
  · subst hclose
    exact .inl ⟨rfl, fun before => by simp [beforeParenthesis?]⟩
  · by_cases hopen : c = '('
    · subst hopen
      cases depth with
      | zero => exact .inr (.inl ⟨rfl, rfl, fun before => by simp [beforeParenthesis?]⟩)
      | succ less =>
          exact .inr (.inr (.inl ⟨less, rfl, rfl, fun before => by simp [beforeParenthesis?]⟩))
    · exact .inr (.inr (.inr ⟨hclose, hopen,
        fun before => by simp [beforeParenthesis?, hclose, hopen]⟩))

/-- One character more on the way changes how many closing parentheses stand in front of the
rest. -/
theorem Covered.cons (h : Covered deeper near)
    (hc : ∀ part : Text, part.count '(' ≤ deeper + part.count ')' →
      (c :: part).count '(' ≤ depth + (c :: part).count ')') : Covered depth (c :: near) := by
  intro part hpart
  cases part with
  | nil => exact Nat.zero_le _
  | cons d part =>
      obtain ⟨rfl, hrest⟩ := List.cons_prefix_cons.1 hpart
      exact hc part (h part hrest)

/-- A closing parenthesis covers an opening one on the rest of the way. -/
theorem Covered.closing (h : Covered (depth + 1) near) : Covered depth (')' :: near) := by
  refine h.cons fun part hpart => ?_
  have hcount : (')' :: part).count '(' = part.count '(' := List.count_cons_of_ne (by decide)
  rw [hcount, List.count_cons_self]
  omega

/-- An opening parenthesis takes the place of one that awaits its partner. -/
theorem Covered.opening (h : Covered depth near) : Covered (depth + 1) ('(' :: near) := by
  refine h.cons fun part hpart => ?_
  have hcount : ('(' :: part).count ')' = part.count ')' := List.count_cons_of_ne (by decide)
  rw [hcount, List.count_cons_self]
  omega

/-- Other characters do not count. -/
theorem Covered.other (h : Covered depth near) (hclose : c ≠ ')') (hopen : c ≠ '(') :
    Covered depth (c :: near) := by
  refine h.cons fun part hpart => ?_
  rw [List.count_cons_of_ne hclose, List.count_cons_of_ne hopen]
  exact hpart

/-- Where the walk finds nothing, no parenthesis is open on the whole way. -/
theorem covered_of_beforeParenthesis?_eq_none (h : beforeParenthesis? depth before = none) :
    Covered depth before := by
  induction before generalizing depth with
  | nil =>
      intro part hpart
      rw [List.prefix_nil.1 hpart]
      exact Nat.zero_le _
  | cons c before ih =>
      rcases beforeParenthesis?_cons_cases depth c with
        ⟨rfl, hstep⟩ | ⟨rfl, rfl, hstep⟩ | ⟨less, rfl, rfl, hstep⟩ | ⟨hclose, hopen, hstep⟩
      · exact (ih ((hstep _).symm.trans h)).closing
      · exact absurd ((hstep _).symm.trans h) (by simp)
      · exact (ih ((hstep _).symm.trans h)).opening
      · exact (ih ((hstep _).symm.trans h)).other hclose hopen

/-- Where the walk ends at a parenthesis, this is the first one on the way that is open. -/
theorem exists_of_beforeParenthesis?_eq_some (h : beforeParenthesis? depth before = some rest) :
    ∃ near, before = near ++ '(' :: rest ∧ Covered depth near ∧
      depth + near.count ')' = near.count '(' := by
  induction before generalizing depth with
  | nil => exact absurd h (by simp [beforeParenthesis?])
  | cons c before ih =>
      rcases beforeParenthesis?_cons_cases depth c with
        ⟨rfl, hstep⟩ | ⟨rfl, rfl, hstep⟩ | ⟨less, rfl, rfl, hstep⟩ | ⟨hclose, hopen, hstep⟩
      · obtain ⟨near, rfl, hcovered, hcount⟩ := ih ((hstep _).symm.trans h)
        refine ⟨')' :: near, rfl, hcovered.closing, ?_⟩
        rw [List.count_cons_self, List.count_cons_of_ne (by decide)]
        omega
      · obtain rfl := Option.some.inj ((hstep _).symm.trans h)
        refine ⟨[], rfl, ?_, rfl⟩
        intro part hpart
        rw [List.prefix_nil.1 hpart]
        exact Nat.zero_le _
      · obtain ⟨near, rfl, hcovered, hcount⟩ := ih ((hstep _).symm.trans h)
        refine ⟨'(' :: near, rfl, hcovered.opening, ?_⟩
        rw [List.count_cons_self, List.count_cons_of_ne (by decide)]
        omega
      · obtain ⟨near, rfl, hcovered, hcount⟩ := ih ((hstep _).symm.trans h)
        refine ⟨c :: near, rfl, hcovered.other hclose hopen, ?_⟩
        rw [List.count_cons_of_ne hclose, List.count_cons_of_ne hopen]
        exact hcount

end Walk

/-! ## The innermost parenthesis -/

/-- The way back from one index to another is the slice between them, read backwards. -/
theorem reverse_slice_begins (text : Text) (i n : Nat) :
    (slice text i n).reverse <+: (text.take n).reverse := by
  refine ⟨((text.take n).take i).reverse, ?_⟩
  rw [← List.reverse_append, slice, List.take_append_drop]

/-- No parenthesis is open on a covered way. -/
theorem not_opensAt_of_covered {text : Text} {i n : Nat}
    (h : (slice text i n).reverse.count '(' ≤ (slice text i n).reverse.count ')') :
    ¬ OpensAt text n i := by
  rintro ⟨-, hcount⟩
  rw [List.count_reverse, List.count_reverse] at h
  omega

/-- Where the walk finds nothing, no parenthesis is open. -/
theorem not_opensAt_of_beforeParenthesis?_eq_none {text : Text} {n : Nat}
    (h : beforeParenthesis? 0 (text.take n).reverse = none) (i : Nat) : ¬ OpensAt text n i := by
  have hcovered := covered_of_beforeParenthesis?_eq_none h _ (reverse_slice_begins text i n)
  exact not_opensAt_of_covered (by omega)

/-- The walk ends at the innermost parenthesis and leaves what stands in front of it. -/
theorem innermost_of_beforeParenthesis?_eq_some {text rest : Text} {n : Nat}
    (h : beforeParenthesis? 0 (text.take n).reverse = some rest) :
    Innermost text n rest.length ∧ rest.reverse = text.take rest.length := by
  obtain ⟨near, hsplit, hcovered, hcount⟩ := exists_of_beforeParenthesis?_eq_some h
  have htake : text.take n = rest.reverse ++ '(' :: near.reverse := by
    have := congrArg List.reverse hsplit
    simpa using this
  have hlength : (text.take n).length = rest.length + (near.length + 1) := by
    rw [htake]
    simp
  have hlt : rest.length < n := by
    rw [List.length_take] at hlength
    omega
  have hslice : slice text rest.length n = '(' :: near.reverse := by
    rw [slice, htake, List.drop_left' (List.length_reverse)]
  have hbehind : (text.take n).drop (rest.length + 1) = near.reverse := by
    rw [← List.drop_drop]
    show (slice text rest.length n).drop 1 = _
    rw [hslice]
    rfl
  refine ⟨⟨hlt, ⟨?_, ?_⟩, ?_⟩, ?_⟩
  · rw [← List.getElem?_take_of_lt hlt, htake]
    simp
  · rw [hslice, List.count_cons_self, List.count_cons_of_ne (by decide), List.count_reverse,
      List.count_reverse]
    omega
  · intro j hj hopens
    by_contra hle
    -- Behind the parenthesis the way is covered.
    have hdrop : slice text j n = near.reverse.drop (j - (rest.length + 1)) := by
      rw [← hbehind, List.drop_drop, slice]
      congr 1
      omega
    have hpart : (slice text j n).reverse <+: near := by
      rw [← List.reverse_reverse near, List.reverse_prefix, hdrop]
      exact List.drop_suffix _ _
    have hcounts := hcovered _ hpart
    exact not_opensAt_of_covered (by omega) hopens
  · have hfront := congrArg (List.take rest.length) htake
    rw [List.take_take, Nat.min_eq_left (Nat.le_of_lt hlt), List.take_left' List.length_reverse]
      at hfront
    exact hfront.symm

/-! ## The callee in front of it -/

/-- The run of name characters that ends a text is unique, and the walk back reads it. -/
theorem EndsInRun.takeWhile_eq {text run : Text} (h : EndsInRun text run) :
    ((skipBlanks text.reverse).takeWhile isNameChar).reverse = run := by
  obtain ⟨hchars, front, gap, rfl, hgap, hblank, hname⟩ := h
  have hgap' : ∀ c ∈ gap.reverse, isBlank c = true := fun c hc => hgap c (List.mem_reverse.1 hc)
  have hrun : ∀ c ∈ run.reverse, isNameChar c = true :=
    fun c hc => hchars c (List.mem_reverse.1 hc)
  rw [List.reverse_append, skipBlanks_stretch hgap' (by rw [List.head?_reverse]; exact hblank),
    List.reverse_append, takeWhile_stretch hrun (by rw [List.head?_reverse]; exact hname),
    List.reverse_reverse]

/-- A text ends in the run that the walk back reads. -/
theorem endsInRun_takeWhile (text : Text) :
    EndsInRun text ((skipBlanks text.reverse).takeWhile isNameChar).reverse := by
  refine ⟨fun c hc => mem_takeWhile (List.mem_reverse.1 hc),
    ((skipBlanks text.reverse).dropWhile isNameChar).reverse, (blanks text.reverse).reverse, ?_,
    ?_, ?_, ?_⟩
  · rw [← List.reverse_append, List.takeWhile_append_dropWhile, ← List.reverse_append,
      blanks_append_skipBlanks, List.reverse_reverse]
  · exact fun c hc => isGap_blanks _ c (List.mem_reverse.1 hc)
  · rw [← List.reverse_append, List.takeWhile_append_dropWhile, List.getLast?_reverse]
    exact head?_skipBlanks _
  · rw [List.getLast?_reverse]
    exact head?_dropWhile _ _

/-- The name in a run is what is left of it without the characters that cannot begin a name. -/
theorem nameIn_iff {run : Text} {callee : Option Text} : NameIn run callee ↔
    (match run.dropWhile (! isNameStart ·) with
      | [] => none
      | name => some name) = callee := by
  constructor
  · intro h
    cases callee with
    | none =>
        have hnil : run.dropWhile (! isNameStart ·) = [] := by
          rw [List.dropWhile_eq_nil_iff]
          exact fun c hc => by simp [h c hc]
        rw [hnil]
    | some name =>
        obtain ⟨lead, rfl, hlead, hstart⟩ := h
        obtain ⟨c, name, rfl⟩ := List.exists_cons_of_ne_nil
          (show name ≠ [] by rintro rfl; simp at hstart)
        have hskip : ∀ d ∈ lead, (! isNameStart d) = true := fun d hd => by simp [hlead d hd]
        have hc : isNameStart c = true := by simpa using hstart
        rw [dropWhile_stretch hskip (by simp [hc])]
  · intro h
    have hsplit := @List.takeWhile_append_dropWhile _ (! isNameStart ·) run
    have hskip : ∀ d ∈ run.takeWhile (! isNameStart ·), isNameStart d = false :=
      fun d hd => by simpa using mem_takeWhile hd
    cases hname : run.dropWhile (! isNameStart ·) with
    | nil =>
        rw [hname] at h hsplit
        subst h
        rw [List.append_nil] at hsplit
        show ∀ c ∈ run, isNameStart c = false
        rw [← hsplit]
        exact hskip
    | cons c name =>
        rw [hname] at h hsplit
        subst h
        refine ⟨_, hsplit.symm, hskip, ?_⟩
        have hhead := head?_dropWhile (! isNameStart ·) run
        rw [hname] at hhead
        simpa using hhead

/-- The callee in front of a parenthesis is the name in the run that ends the text there. -/
theorem calleeBefore?_eq_iff {before : Text} {callee : Option Text} :
    calleeBefore? before = callee ↔
      ∃ run, EndsInRun (before.take calleeReach).reverse run ∧ NameIn run callee := by
  have hread : ∀ run, EndsInRun (before.take calleeReach).reverse run →
      ((skipBlanks (before.take calleeReach)).takeWhile isNameChar).reverse = run := by
    intro run h
    have := h.takeWhile_eq
    rwa [List.reverse_reverse] at this
  constructor
  · intro h
    have hends := endsInRun_takeWhile (before.take calleeReach).reverse
    rw [List.reverse_reverse] at hends
    exact ⟨_, hends, nameIn_iff.2 h⟩
  · rintro ⟨run, hends, hname⟩
    rw [← hread run hends] at hname
    exact nameIn_iff.1 hname

/-- Of two innermost indices, each comes last. -/
theorem Innermost.unique {text : Text} {n i j : Nat} (hi : Innermost text n i)
    (hj : Innermost text n j) : i = j :=
  Nat.le_antisymm (hj.last i hi.lt hi.opens) (hi.last j hj.lt hj.opens)

/-- The call around an index of a text, by the innermost parenthesis and the run in front of
it. -/
theorem enclosingCallee?_eq_iff {text : Text} {n : Nat} {callee : Option Text} :
    enclosingCallee? (text.take n).reverse = callee ↔
      callee = none ∧ (∀ i < n, ¬ OpensAt text n i) ∨
      ∃ i run, Innermost text n i ∧ EndsInRun (slice text (i - 200) i) run ∧
        NameIn run callee := by
  rw [enclosingCallee?_eq_bind]
  cases hwalk : beforeParenthesis? 0 (text.take n).reverse with
  | none =>
      have hnone := not_opensAt_of_beforeParenthesis?_eq_none hwalk
      constructor
      · intro h
        exact .inl ⟨h.symm, fun i _ => hnone i⟩
      · rintro (⟨rfl, -⟩ | ⟨i, run, hinner, -⟩)
        · rfl
        · exact absurd hinner.opens (hnone i)
  | some rest =>
      obtain ⟨hinner, hrest⟩ := innermost_of_beforeParenthesis?_eq_some hwalk
      have hnear :
          (rest.take calleeReach).reverse = slice text (rest.length - 200) rest.length := by
        rw [List.reverse_take, hrest]
        rfl
      show calleeBefore? rest = callee ↔ _
      rw [calleeBefore?_eq_iff, hnear]
      constructor
      · rintro ⟨run, hends, hname⟩
        exact .inr ⟨rest.length, run, hinner, hends, hname⟩
      · rintro (⟨-, hnone⟩ | ⟨i, run, hother, hends, hname⟩)
        · exact absurd hinner.opens (hnone rest.length hinner.lt)
        · rw [hother.unique hinner] at hends
          exact ⟨run, hends, hname⟩

/-! ## What has no influence -/

/-- A character that is neither a parenthesis nor whitespace nor part of a name. -/
def isBystander (c : Char) : Bool :=
  c != '(' && c != ')' && !isBlank c && !isNameChar c

/-- Two characters are equal, or both are bystanders. -/
def Alike (c d : Char) : Prop :=
  c = d ∨ isBystander c = true ∧ isBystander d = true

/-- Alike characters belong to the same classes. -/
theorem Alike.classes {c d : Char} (h : Alike c d) :
    isBlank c = isBlank d ∧ isNameChar c = isNameChar d := by
  rcases h with rfl | ⟨hc, hd⟩
  · exact ⟨rfl, rfl⟩
  · simp only [isBystander, Bool.and_eq_true, bne_iff_ne, Bool.not_eq_true'] at hc hd
    rw [hc.1.2, hd.1.2, hc.2, hd.2]
    exact ⟨rfl, rfl⟩

section Alike

variable {text other : Text}

/-- Skipping whitespace leaves alike texts. -/
theorem alike_skipBlanks (h : List.Forall₂ Alike text other) :
    List.Forall₂ Alike (skipBlanks text) (skipBlanks other) := by
  induction h with
  | nil => exact .nil
  | cons hc hrest ih =>
      rename_i c d text other
      have hblank := hc.classes.1
      simp only [skipBlanks, List.dropWhile_cons] at ih ⊢
      rw [hblank]
      split
      · exact ih
      · exact .cons hc hrest

/-- Alike texts begin with the same run of name characters. -/
theorem alike_takeWhile (h : List.Forall₂ Alike text other) :
    text.takeWhile isNameChar = other.takeWhile isNameChar := by
  induction h with
  | nil => rfl
  | cons hc hrest ih =>
      rename_i c d text other
      rw [List.takeWhile_cons, List.takeWhile_cons, hc.classes.2]
      split
      · rename_i hname
        rcases hc with rfl | ⟨-, hd⟩
        · rw [ih]
        · simp [isBystander, hname] at hd
      · rfl

/-- The walk passes over bystanders. -/
theorem beforeParenthesis?_bystander {depth : Nat} {c : Char} (h : isBystander c = true)
    (before : Text) :
    beforeParenthesis? depth (c :: before) = beforeParenthesis? depth before := by
  simp only [isBystander, Bool.and_eq_true, bne_iff_ne] at h
  rcases beforeParenthesis?_cons_cases depth c with
    ⟨hclose, -⟩ | ⟨hopen, -⟩ | ⟨less, hopen, -⟩ | ⟨-, -, hstep⟩
  · exact absurd hclose h.1.1.2
  · exact absurd hopen h.1.1.1
  · exact absurd hopen h.1.1.1
  · exact hstep before

/-- In front of alike texts the same callee stands. -/
theorem calleeBefore?_alike (h : List.Forall₂ Alike text other) :
    calleeBefore? text = calleeBefore? other := by
  have hnear := List.forall₂_take calleeReach h
  rw [calleeBefore?, calleeBefore?, alike_takeWhile (alike_skipBlanks hnear)]

/-- The walk over alike texts leads to the same callee. -/
theorem bind_beforeParenthesis?_alike (h : List.Forall₂ Alike text other) (depth : Nat) :
    (beforeParenthesis? depth text).bind calleeBefore? =
      (beforeParenthesis? depth other).bind calleeBefore? := by
  induction h generalizing depth with
  | nil => rfl
  | cons hc hrest ih =>
      rename_i c d text other
      rcases hc with rfl | ⟨hc, hd⟩
      · rcases beforeParenthesis?_cons_cases depth c with
          ⟨-, hstep⟩ | ⟨-, -, hstep⟩ | ⟨less, -, -, hstep⟩ | ⟨-, -, hstep⟩
        · rw [hstep, hstep, ih]
        · rw [hstep, hstep]
          exact calleeBefore?_alike hrest
        · rw [hstep, hstep, ih]
        · rw [hstep, hstep, ih]
      · rw [beforeParenthesis?_bystander hc, beforeParenthesis?_bystander hd, ih]

/-- Brackets that are no parentheses are bystanders. -/
theorem isBystander_bracket {c : Char} (h : c ∈ ['[', ']', '{', '}']) : isBystander c = true := by
  have hall : ['[', ']', '{', '}'].all isBystander = true := by decide
  exact List.all_eq_true.1 hall c h

end Alike

/-! ## The main statement -/

/-- The callee at an offset of a text. With `n` characters in front of it, either no parenthesis
is open at `n` and there is no callee, or the callee is the name in the run that ends the 200
characters in front of the innermost parenthesis. Neither the characters from the offset on nor
the brackets of other kinds have an influence. -/
theorem calleeAt_eq_iff (text : Text) (offset : Int) :
    let n := (min offset text.length).toNat
    (∀ callee, calleeAt? text offset = callee ↔
      callee = none ∧ (∀ i < n, ¬ OpensAt text n i) ∨
      ∃ i run, Innermost text n i ∧ EndsInRun (slice text (i - 200) i) run ∧ NameIn run callee) ∧
    (∀ other : Text, other.take offset.toNat = text.take offset.toNat →
      calleeAt? other offset = calleeAt? text offset) ∧
    ∀ other : Text,
      List.Forall₂ (fun c d => c = d ∨ c ∈ ['[', ']', '{', '}'] ∧ isBystander d = true)
        text other → calleeAt? other offset = calleeAt? text offset := by
  intro n
  refine ⟨fun callee => ?_, fun other hsame => ?_, fun other halike => ?_⟩
  · have htake : text.take offset.toNat = text.take n := by
      rw [List.take_eq_take_iff]
      omega
    rw [calleeAt?, htake]
    exact enclosingCallee?_eq_iff
  · rw [calleeAt?, calleeAt?, hsame]
  · have halike' : List.Forall₂ Alike text other :=
      halike.imp fun c d h => h.imp_right fun ⟨hc, hd⟩ => ⟨isBystander_bracket hc, hd⟩
    have hbefore := List.forall₂_reverse_iff.2 (List.forall₂_take offset.toNat halike')
    rw [calleeAt?, calleeAt?, enclosingCallee?_eq_bind, enclosingCallee?_eq_bind]
    exact (bind_beforeParenthesis?_alike hbefore 0).symm

example : calleeAt? "client.create ([(a), \x7b" 21 = some "client.create".toList := by
  decide +kernel

end Source

end SdkUpgrade

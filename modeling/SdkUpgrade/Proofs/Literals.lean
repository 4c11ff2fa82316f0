import Mathlib.Data.Nat.Find
import SdkUpgrade.Proofs.Names
import SdkUpgrade.Source.Literal

/-!
# Where a literal ends

A literal is read by one walk over its body. Two descriptions of this walk do without it. `IsBody`
builds a body item by item: a backslash with the character behind it, or any other character at
which the delimiter does not begin. `ClosesAt` looks at the whole text and asks for the first
place at which the delimiter stands unescaped, that is, behind an even number of backslashes. The
walk finds exactly these bodies and exactly this place.

At the beginning of a value three equal quotes open a long literal. `Literal.read?_eq_some_iff`
says exactly what is read: the literal that has the delimiter which opens the value and ends where
this delimiter is closed first or, where three quotes open the value and nothing closes them, the
first two of them as an empty literal.
-/

namespace SdkUpgrade

namespace Source

open Text

/-- Reading past `lead` fails exactly on the texts that do not begin with it. -/
theorem after?_eq_none_iff {lead text : Text} : after? lead text = none ↔ ¬ lead <+: text := by
  constructor
  · rintro h ⟨rest, rfl⟩
    exact absurd h (by simp)
  · intro h
    cases hread : after? lead text with
    | none => rfl
    | some rest => exact absurd ⟨rest, (after?_eq_some_iff.1 hread).symm⟩ h

/-! ## Bodies, item by item -/

/-- A text of items in front of a closing delimiter: a backslash with any character, or a
character other than a backslash at which the delimiter does not begin. Only in a literal of
several lines may this be a line break. -/
inductive IsBody (delimiter : Text) (multiline : Bool) : Text → Prop where
  | nil : IsBody delimiter multiline []
  | escape {c : Char} {body : Text} :
      IsBody delimiter multiline body → IsBody delimiter multiline ('\\' :: c :: body)
  | plain {c : Char} {body : Text} : c ≠ '\\' → (multiline = false → c ≠ '\n') →
      ¬ delimiter <+: c :: (body ++ delimiter) → IsBody delimiter multiline body →
      IsBody delimiter multiline (c :: body)

/-- A delimiter begins with a character that escapes nothing. -/
def Delimits (delimiter : Text) : Prop :=
  ∃ c, delimiter.head? = some c ∧ c ≠ '\\'

section Body

variable {delimiter text body rest : Text} {multiline : Bool} {c : Char}

/-- A delimiter has at least one character. -/
theorem Delimits.ne_nil (h : Delimits delimiter) : delimiter ≠ [] := by
  rintro rfl
  obtain ⟨c, hc, -⟩ := h
  exact absurd hc (by simp)

/-- No delimiter begins at a backslash. -/
theorem Delimits.not_backslash (h : Delimits delimiter) (text : Text) :
    ¬ delimiter <+: '\\' :: text := by
  obtain ⟨c, hhead, hc⟩ := h
  obtain ⟨delimiter, rfl⟩ := List.head?_eq_some_iff.1 hhead
  intro hbegins
  exact hc (List.cons_prefix_cons.1 hbegins).1

/-- Where the delimiter stands, the body ends. -/
theorem body?_delimiter (hd : Delimits delimiter) (rest : Text) :
    Literal.body? delimiter multiline (delimiter ++ rest) = some ([], rest) := by
  obtain ⟨c, hhead, hc⟩ := hd
  obtain ⟨more, rfl⟩ := List.head?_eq_some_iff.1 hhead
  have hread : after? (c :: more) (c :: (more ++ rest)) = some rest :=
    after?_append (c :: more) rest
  rw [List.cons_append, Literal.body?.eq_def]
  split
  · simp_all
  · simp_all
  · simp_all
  · rename_i d text _ _ heq
    obtain ⟨rfl, rfl⟩ := List.cons.inj heq
    rw [hread]

/-- A character other than a backslash at which the delimiter does not begin belongs to the
body. -/
theorem body?_plain (hc : c ≠ '\\') (hline : multiline = false → c ≠ '\n')
    (hopen : ¬ delimiter <+: c :: text) : Literal.body? delimiter multiline (c :: text) =
      (Literal.body? delimiter multiline text).map fun (body, rest) => (c :: body, rest) := by
  have hnot : ¬ (c = '\n' ∧ multiline = false) := fun h => hline h.2 h.1
  rw [Literal.body?.eq_def]
  split
  · simp_all
  · simp_all
  · simp_all
  · rename_i d text _ _ heq
    obtain ⟨rfl, rfl⟩ := List.cons.inj heq
    rw [after?_eq_none_iff.2 hopen, if_neg hnot]

/-- What begins at a character of a body begins there in front of any rest. -/
theorem begins_append_iff : delimiter <+: c :: (body ++ (delimiter ++ rest)) ↔
    delimiter <+: c :: (body ++ delimiter) := by
  rw [← List.append_assoc, ← List.cons_append]
  refine ⟨fun h => ?_, fun h => h.trans (List.prefix_append _ _)⟩
  refine List.prefix_of_prefix_length_le h (List.prefix_append _ rest) ?_
  simp only [List.length_cons, List.length_append]
  omega

/-- The walk reads exactly the bodies made of items. -/
theorem body?_eq_some_iff (hd : Delimits delimiter) :
    Literal.body? delimiter multiline text = some (body, rest) ↔
      IsBody delimiter multiline body ∧ text = body ++ (delimiter ++ rest) := by
  constructor
  · intro h
    fun_induction Literal.body? delimiter multiline text generalizing body rest with
    | case1 => exact absurd h (by simp)
    | case2 => exact absurd h (by simp)
    | case3 c text ih =>
        obtain ⟨⟨inner, following⟩, hi, heq⟩ := Option.map_eq_some_iff.1 h
        obtain ⟨rfl, rfl⟩ := Prod.mk.inj heq
        obtain ⟨hbody, rfl⟩ := ih hi
        exact ⟨.escape hbody, rfl⟩
    | case4 c text _ _ following hf =>
        obtain ⟨rfl, rfl⟩ := Prod.mk.inj (Option.some.inj h)
        refine ⟨.nil, ?_⟩
        show c :: text = delimiter ++ following
        exact after?_eq_some_iff.1 hf
    | case5 => exact absurd h (by simp)
    | case6 c text hlast hescape hnone hline ih =>
        obtain ⟨⟨inner, following⟩, hi, heq⟩ := Option.map_eq_some_iff.1 h
        obtain ⟨rfl, rfl⟩ := Prod.mk.inj heq
        obtain ⟨hbody, rfl⟩ := ih hi
        refine ⟨.plain ?_ (fun hone hc => hline ⟨hc, hone⟩) ?_ hbody, rfl⟩
        · rintro rfl
          cases htext : inner ++ (delimiter ++ following) with
          | nil => exact hlast rfl htext
          | cons d more => exact hescape d more rfl htext
        · rw [← begins_append_iff]
          exact after?_eq_none_iff.1 hnone
  · rintro ⟨hbody, rfl⟩
    induction hbody with
    | nil => exact body?_delimiter hd rest
    | escape _ ih => simp [Literal.body?, ih]
    | plain hc hline hopen _ ih =>
        rw [List.cons_append, body?_plain hc hline (mt begins_append_iff.1 hopen), ih]
        rfl

end Body

/-! ## Bodies, by the first place that closes them -/

/-- The place behind `front` is not escaped: an even number of backslashes ends `front`. -/
def Unescaped (front : Text) : Prop :=
  (front.reverse.takeWhile (· == '\\')).length % 2 = 0

instance (front : Text) : Decidable (Unescaped front) :=
  inferInstanceAs (Decidable (_ = _))

/-- The sign stands unescaped at an index of the text. -/
def StandsAt (sign text : Text) (n : Nat) : Prop :=
  sign <+: text.drop n ∧ Unescaped (text.take n)

/-- The delimiter closes a literal at an index of what follows its opening: it stands
there unescaped for the first time, and in a literal of one line no line break stands
unescaped in front of it. -/
structure ClosesAt (delimiter : Text) (multiline : Bool) (text : Text) (n : Nat) : Prop where
  closes : StandsAt delimiter text n
  first : ∀ m < n, ¬ StandsAt delimiter text m
  oneLine : multiline = false → ∀ m < n, ¬ StandsAt ['\n'] text m

section Unescaped

variable {c : Char} {sign front text : Text} {n : Nat}

/-- A text begins unescaped. -/
theorem unescaped_nil : Unescaped [] :=
  rfl

/-- A backslash escapes the place behind it. -/
theorem not_unescaped_backslash : ¬ Unescaped ['\\'] := by
  decide

/-- An item of two characters in front does not matter. -/
theorem unescaped_escape : Unescaped ('\\' :: c :: front) ↔ Unescaped front := by
  unfold Unescaped
  rw [List.reverse_cons, List.reverse_cons, List.append_assoc, List.takeWhile_append]
  split
  · rename_i hall
    rw [List.length_append, hall]
    by_cases hc : c = '\\'
    · simp [hc]
    · simp [hc]
  · rfl

/-- Any other character in front does not matter. -/
theorem unescaped_plain (hc : c ≠ '\\') : Unescaped (c :: front) ↔ Unescaped front := by
  unfold Unescaped
  rw [List.reverse_cons, List.takeWhile_append]
  split
  · rename_i hall
    simp [hc, hall]
  · rfl

/-- Behind an item of two characters the same signs stand. -/
theorem standsAt_escape (hs : Delimits sign) :
    StandsAt sign ('\\' :: c :: text) n ↔ ∃ k, n = k + 2 ∧ StandsAt sign text k := by
  constructor
  · rintro ⟨hbegins, hplace⟩
    match n with
    | 0 => exact absurd hbegins (hs.not_backslash _)
    | 1 => exact absurd hplace not_unescaped_backslash
    | k + 2 => exact ⟨k, rfl, hbegins, unescaped_escape.1 hplace⟩
  · rintro ⟨k, rfl, hbegins, hplace⟩
    exact ⟨hbegins, unescaped_escape.2 hplace⟩

/-- Behind any other character the same signs stand. -/
theorem standsAt_plain (hc : c ≠ '\\') : StandsAt sign (c :: text) n ↔
    n = 0 ∧ sign <+: c :: text ∨ ∃ k, n = k + 1 ∧ StandsAt sign text k := by
  constructor
  · rintro ⟨hbegins, hplace⟩
    cases n with
    | zero => exact .inl ⟨rfl, hbegins⟩
    | succ k => exact .inr ⟨k, rfl, hbegins, (unescaped_plain hc).1 hplace⟩
  · rintro (⟨rfl, hbegins⟩ | ⟨k, rfl, hbegins, hplace⟩)
    · exact ⟨hbegins, unescaped_nil⟩
    · exact ⟨hbegins, (unescaped_plain hc).2 hplace⟩

/-- A line break is a sign that escapes nothing. -/
theorem delimits_newline : Delimits ['\n'] :=
  ⟨'\n', rfl, by decide⟩

end Unescaped

section ClosesAt

variable {delimiter text body rest : Text} {multiline : Bool} {c : Char} {n : Nat}

/-- A literal is closed behind an item of two characters where what follows the item is. -/
theorem closesAt_escape (hd : Delimits delimiter) :
    ClosesAt delimiter multiline ('\\' :: c :: text) n ↔
      ∃ k, n = k + 2 ∧ ClosesAt delimiter multiline text k := by
  constructor
  · rintro ⟨hcloses, hfirst, hline⟩
    obtain ⟨k, rfl, hk⟩ := (standsAt_escape hd).1 hcloses
    refine ⟨k, rfl, hk, fun m hm hstands => ?_, fun hone m hm hstands => ?_⟩
    · exact hfirst (m + 2) (by omega) ((standsAt_escape hd).2 ⟨m, rfl, hstands⟩)
    · exact hline hone (m + 2) (by omega) ((standsAt_escape delimits_newline).2 ⟨m, rfl, hstands⟩)
  · rintro ⟨k, rfl, hcloses, hfirst, hline⟩
    refine ⟨(standsAt_escape hd).2 ⟨k, rfl, hcloses⟩, fun m hm hstands => ?_,
      fun hone m hm hstands => ?_⟩
    · obtain ⟨l, rfl, hl⟩ := (standsAt_escape hd).1 hstands
      exact hfirst l (by omega) hl
    · obtain ⟨l, rfl, hl⟩ := (standsAt_escape delimits_newline).1 hstands
      exact hline hone l (by omega) hl

/-- A literal is closed at any other character if the delimiter begins there, and else where what
follows the character is. -/
theorem closesAt_plain (hc : c ≠ '\\') : ClosesAt delimiter multiline (c :: text) n ↔
    n = 0 ∧ delimiter <+: c :: text ∨
      ∃ k, n = k + 1 ∧ ¬ delimiter <+: c :: text ∧ (multiline = false → c ≠ '\n') ∧
        ClosesAt delimiter multiline text k := by
  constructor
  · rintro ⟨hcloses, hfirst, hline⟩
    rcases (standsAt_plain hc).1 hcloses with hzero | ⟨k, rfl, hk⟩
    · exact .inl hzero
    · refine .inr ⟨k, rfl, fun hbegins => ?_, ?_, hk, fun m hm hstands => ?_,
        fun hone m hm hstands => ?_⟩
      · exact hfirst 0 (by omega) ((standsAt_plain hc).2 (.inl ⟨rfl, hbegins⟩))
      · rintro hone rfl
        exact hline hone 0 (by omega) ((standsAt_plain hc).2 (.inl ⟨rfl, List.prefix_append _ _⟩))
      · exact hfirst (m + 1) (by omega) ((standsAt_plain hc).2 (.inr ⟨m, rfl, hstands⟩))
      · exact hline hone (m + 1) (by omega) ((standsAt_plain hc).2 (.inr ⟨m, rfl, hstands⟩))
  · rintro (⟨rfl, hbegins⟩ | ⟨k, rfl, hopen, hplain, hcloses, hfirst, hline⟩)
    · exact ⟨(standsAt_plain hc).2 (.inl ⟨rfl, hbegins⟩),
        fun m hm => absurd hm (Nat.not_lt_zero m), fun _ m hm => absurd hm (Nat.not_lt_zero m)⟩
    · refine ⟨(standsAt_plain hc).2 (.inr ⟨k, rfl, hcloses⟩), fun m hm hstands => ?_,
        fun hone m hm hstands => ?_⟩
      · rcases (standsAt_plain hc).1 hstands with ⟨-, hbegins⟩ | ⟨l, rfl, hl⟩
        · exact hopen hbegins
        · exact hfirst l (by omega) hl
      · rcases (standsAt_plain hc).1 hstands with ⟨-, hbegins⟩ | ⟨l, rfl, hl⟩
        · exact hplain hone (List.cons_prefix_cons.1 hbegins).1.symm
        · exact hline hone l (by omega) hl

/-- A literal is closed at an index exactly if the text in front of it consists of items and the
delimiter follows. -/
theorem closesAt_iff (hd : Delimits delimiter) : ClosesAt delimiter multiline text n ↔
    ∃ body rest, IsBody delimiter multiline body ∧ body.length = n ∧
      text = body ++ (delimiter ++ rest) := by
  constructor
  · intro h
    -- The text is taken apart as the walk does it: one item after the other.
    induction n using Nat.strongRecOn generalizing text with
    | _ n ih =>
        cases text with
        | nil =>
            have hbegins := h.closes.1
            rw [List.drop_nil] at hbegins
            exact absurd (List.prefix_nil.1 hbegins) hd.ne_nil
        | cons c text =>
            by_cases hc : c = '\\'
            · subst hc
              cases text with
              | nil =>
                  have hbegins := h.closes.1
                  cases n with
                  | zero => exact absurd hbegins (hd.not_backslash _)
                  | succ n =>
                      rw [List.drop_succ_cons, List.drop_nil] at hbegins
                      exact absurd (List.prefix_nil.1 hbegins) hd.ne_nil
              | cons d text =>
                  obtain ⟨k, rfl, hk⟩ := (closesAt_escape hd).1 h
                  obtain ⟨body, rest, hbody, rfl, rfl⟩ := ih k (by omega) hk
                  exact ⟨'\\' :: d :: body, rest, .escape hbody, rfl, rfl⟩
            · rcases (closesAt_plain hc).1 h with ⟨rfl, rest, hrest⟩ | ⟨k, rfl, hopen, hline, hk⟩
              · exact ⟨[], rest, .nil, rfl, hrest.symm⟩
              · obtain ⟨body, rest, hbody, rfl, rfl⟩ := ih k (by omega) hk
                exact ⟨c :: body, rest,
                  .plain hc hline (mt begins_append_iff.2 hopen) hbody, rfl, rfl⟩
  · rintro ⟨body, rest, hbody, rfl, rfl⟩
    induction hbody with
    | nil =>
        exact ⟨⟨List.prefix_append _ _, unescaped_nil⟩, fun m hm => absurd hm (Nat.not_lt_zero m),
          fun _ m hm => absurd hm (Nat.not_lt_zero m)⟩
    | escape _ ih => exact (closesAt_escape hd).2 ⟨_, rfl, ih⟩
    | plain hc hline hopen _ ih =>
        exact (closesAt_plain hc).2 (.inr ⟨_, rfl, mt begins_append_iff.1 hopen, hline, ih⟩)

/-- The walk finds exactly the first place that closes the literal. -/
theorem body?_eq_some_iff_closesAt (hd : Delimits delimiter) :
    Literal.body? delimiter multiline text = some (body, rest) ↔
      ClosesAt delimiter multiline text body.length ∧ text = body ++ (delimiter ++ rest) := by
  rw [body?_eq_some_iff hd]
  refine and_congr_left
    fun htext => ⟨fun h => (closesAt_iff hd).2 ⟨body, rest, h, rfl, htext⟩, ?_⟩
  intro h
  obtain ⟨other, more, hother, hlength, hsplit⟩ := (closesAt_iff hd).1 h
  obtain ⟨rfl, -⟩ := List.append_inj (hsplit.symm.trans htext) hlength
  exact hother

/-- In a literal of several lines the walk ends nowhere exactly if the delimiter stands nowhere
unescaped. -/
theorem body?_eq_none_iff (hd : Delimits delimiter) :
    Literal.body? delimiter true text = none ↔ ∀ n, ¬ StandsAt delimiter text n := by
  constructor
  · intro hnone n hstands
    have hex : ∃ n, StandsAt delimiter text n := ⟨n, hstands⟩
    classical
    have hfirst : ClosesAt delimiter true text (Nat.find hex) :=
      ⟨Nat.find_spec hex, fun m hm => Nat.find_min hex hm, fun hone => absurd hone (by simp)⟩
    obtain ⟨body, rest, hbody, -, htext⟩ := (closesAt_iff hd).1 hfirst
    rw [(body?_eq_some_iff hd).2 ⟨hbody, htext⟩] at hnone
    exact absurd hnone (by simp)
  · intro hnone
    cases hread : Literal.body? delimiter true text with
    | none => rfl
    | some found =>
        obtain ⟨body, rest⟩ := found
        exact absurd ((body?_eq_some_iff_closesAt hd).1 hread).1.closes (hnone _)

end ClosesAt

/-! ## Values -/

namespace Literal

/-- The literal has the delimiter that opens the value and ends where this delimiter is closed
first: three equal quotes if the value begins with them, else one quote. -/
inductive Exact (value : Text) (literal : Literal) : Prop where
  | long {q : Char} : isQuote q = true → [q, q, q] <+: value → literal.delimiter = [q, q, q] →
      ClosesAt [q, q, q] true (value.drop 3) literal.body.length → literal.text <+: value →
      Exact value literal
  | short {q : Char} : isQuote q = true → [q] <+: value → ¬ [q, q, q] <+: value →
      literal.delimiter = [q] → ClosesAt [q] false (value.drop 1) literal.body.length →
      literal.text <+: value → Exact value literal

/-- Three quotes open the value, and nothing closes them. -/
def Unclosed (q : Char) (value : Text) : Prop :=
  [q, q, q] <+: value ∧ ∀ n, ¬ StandsAt [q, q, q] (value.drop 3) n

/-- A well-formed literal in the given quotes: items in one line between two of them, or items
between two times three of them. -/
inductive WellFormed (q : Char) (literal : Literal) : Prop where
  | short (quote : isQuote q = true) (delimiter : literal.delimiter = [q])
      (body : IsBody [q] false literal.body)
  | long (quote : isQuote q = true) (delimiter : literal.delimiter = [q, q, q])
      (body : IsBody [q, q, q] true literal.body)

/-- Quotes delimit literals. -/
theorem delimits_quotes {q : Char} (hq : isQuote q = true) (more : Text) :
    Delimits (q :: more) := by
  refine ⟨q, rfl, ?_⟩
  rintro rfl
  exact absurd hq (by decide)

/-- A literal between given delimiters is read exactly where they stand and close it. -/
theorem between?_eq_some_iff {delimiter value rest : Text} {multiline : Bool} {literal : Literal}
    (hd : Delimits delimiter) : between? delimiter multiline value = some (literal, rest) ↔
      literal.delimiter = delimiter ∧
        ClosesAt delimiter multiline (value.drop delimiter.length) literal.body.length ∧
        value = literal.text ++ rest := by
  obtain ⟨other, body⟩ := literal
  constructor
  · intro h
    obtain ⟨rfl, htext⟩ := between?_eq_some h
    obtain ⟨inner, hi, h⟩ := Option.bind_eq_some_iff.1 h
    obtain ⟨⟨found, following⟩, hb, heq⟩ := Option.map_eq_some_iff.1 h
    obtain ⟨hliteral, rfl⟩ := Prod.mk.inj heq
    obtain ⟨-, rfl⟩ := Literal.mk.inj hliteral
    refine ⟨rfl, ?_, htext⟩
    rw [after?_eq_some_iff.1 hi, List.drop_left]
    exact ((body?_eq_some_iff_closesAt hd).1 hb).1
  · rintro ⟨rfl, hcloses, rfl⟩
    have hinner : Literal.text ⟨other, body⟩ ++ rest = other ++ (body ++ (other ++ rest)) := by
      simp [Literal.text]
    rw [hinner, List.drop_left] at hcloses
    have hbody := (body?_eq_some_iff_closesAt hd).2 ⟨hcloses, rfl⟩
    rw [hinner, between?, after?_append, Option.bind_some, hbody]
    rfl

/-- No literal of several lines is read exactly if the delimiter does not open the value or stands
nowhere unescaped behind its opening. -/
theorem between?_eq_none_iff {delimiter value : Text} (hd : Delimits delimiter) :
    between? delimiter true value = none ↔
      (delimiter <+: value → ∀ n, ¬ StandsAt delimiter (value.drop delimiter.length) n) := by
  by_cases hopens : delimiter <+: value
  · obtain ⟨inner, rfl⟩ := hopens
    rw [between?, after?_append, Option.bind_some, Option.map_eq_none_iff, body?_eq_none_iff hd,
      List.drop_left]
    exact ⟨fun h _ => h, fun h => h (List.prefix_append _ _)⟩
  · rw [between?, after?_eq_none_iff.2 hopens]
    exact ⟨fun _ h => absurd h hopens, fun _ => rfl⟩

/-- A value that begins with a quote is read as a long literal, or else as a short one. -/
theorem read?_cons {q : Char} {text : Text} (hq : isQuote q = true) : read? (q :: text) =
    (between? [q, q, q] true (q :: text)).or (between? [q] false (q :: text)) := by
  rw [read?, if_pos hq]
  cases between? [q, q, q] true (q :: text) with
  | none => rfl
  | some long => rfl

section Values

variable {value rest : Text} {literal : Literal}

/-- No two more quotes follow the opening quote of a literal with this body. -/
theorem not_quotes_of_isBody {q : Char} {body : Text} (hq : isQuote q = true)
    (h : IsBody [q] false body) (hrest : rest.head?.any isQuote = false) :
    ¬ [q, q] <+: body ++ ([q] ++ rest) := by
  rintro ⟨more, hmore⟩
  cases h with
  | nil =>
      obtain rfl : q :: more = rest := (List.cons.inj hmore).2
      exact absurd (hrest.symm.trans hq) (by simp)
  | escape _ =>
      obtain ⟨rfl, -⟩ := List.cons.inj hmore
      exact absurd hq (by decide)
  | plain _ _ hbegins _ =>
      obtain ⟨rfl, -⟩ := List.cons.inj hmore
      exact hbegins ⟨_, rfl⟩

/-- What a value with a short literal begins with. -/
theorem closesAt_singleton {q : Char} {text : Text} (hq : isQuote q = true) {n : Nat} :
    ClosesAt [q] false (q :: text) n ↔ n = 0 := by
  have hc : q ≠ '\\' := by
    rintro rfl
    exact absurd hq (by decide)
  have hbegins : [q] <+: q :: text := ⟨text, rfl⟩
  rw [closesAt_plain hc]
  constructor
  · rintro (⟨hn, -⟩ | ⟨-, -, hopen, -⟩)
    · exact hn
    · exact absurd hbegins hopen
  · exact fun hn => .inl ⟨hn, hbegins⟩

/-- A literal is read exactly if it is the one that opens the value, or if it consists of the
first two of three quotes that are not closed. -/
theorem read?_eq_some_iff : read? value = some (literal, rest) ↔
    value = literal.text ++ rest ∧ (literal.Exact value ∨
      ∃ q, isQuote q = true ∧ Unclosed q value ∧ literal = ⟨[q], []⟩) := by
  constructor
  · intro h
    refine ⟨read?_eq_some h, ?_⟩
    cases value with
    | nil => exact absurd h (by simp [read?])
    | cons q text =>
        by_cases hq : isQuote q = true
        · rw [read?_cons hq, Option.or_eq_some_iff, between?_eq_none_iff (delimits_quotes hq _),
            between?_eq_some_iff (delimits_quotes hq _),
            between?_eq_some_iff (delimits_quotes hq _)] at h
          rcases h with ⟨hdelimiter, hcloses, hvalue⟩ | ⟨hnone, hdelimiter, hcloses, hvalue⟩
          · refine .inl (.long hq ?_ hdelimiter hcloses ⟨rest, hvalue.symm⟩)
            rw [hvalue, Literal.text, hdelimiter, List.append_assoc, List.append_assoc]
            exact List.prefix_append _ _
          · by_cases htriple : [q, q, q] <+: q :: text
            · refine .inr ⟨q, hq, ⟨htriple, hnone htriple⟩, ?_⟩
              obtain ⟨more, hmore⟩ := htriple
              obtain ⟨-, rfl⟩ := List.cons.inj hmore
              have hempty := (closesAt_singleton hq).1 hcloses
              obtain ⟨delimiter, body⟩ := literal
              obtain rfl := List.length_eq_zero_iff.1 hempty
              rw [← hdelimiter]
            · exact .inl (.short hq ⟨text, rfl⟩ htriple hdelimiter hcloses ⟨rest, hvalue.symm⟩)
        · rw [read?, if_neg hq] at h
          exact absurd h (by simp)
  · rintro ⟨hvalue, hexact | ⟨q, hq, ⟨⟨more, rfl⟩, hunclosed⟩, rfl⟩⟩
    · cases hexact with
      | @long q hq hopens hdelimiter hcloses _ =>
          obtain ⟨more, rfl⟩ := hopens
          exact (read?_cons hq).trans (Option.or_eq_some_iff.2 (.inl
            ((between?_eq_some_iff (delimits_quotes hq _)).2 ⟨hdelimiter, hcloses, hvalue⟩)))
      | @short q hq hopens htriple hdelimiter hcloses _ =>
          obtain ⟨more, rfl⟩ := hopens
          refine (read?_cons hq).trans (Option.or_eq_some_iff.2 (.inr ⟨?_, ?_⟩))
          · exact (between?_eq_none_iff (delimits_quotes hq _)).2
              fun hopens => absurd hopens htriple
          · exact (between?_eq_some_iff (delimits_quotes hq _)).2 ⟨hdelimiter, hcloses, hvalue⟩
    · refine (read?_cons hq).trans (Option.or_eq_some_iff.2 (.inr ⟨?_, ?_⟩))
      · exact (between?_eq_none_iff (delimits_quotes hq _)).2 fun _ => hunclosed
      · exact (between?_eq_some_iff (delimits_quotes hq _)).2
          ⟨rfl, (closesAt_singleton hq).2 rfl, hvalue⟩

/-- Where a literal ends as its delimiter demands, it is not one of three quotes that nothing
closes. -/
theorem Exact.not_unclosed (h : literal.Exact value) (q : Char) : ¬ Unclosed q value := by
  rintro ⟨htriple, hunclosed⟩
  cases h with
  | @long p _ hopens _ hcloses _ =>
      obtain ⟨more, rfl⟩ := hopens
      obtain ⟨rfl, -⟩ := List.cons_prefix_cons.1 htriple
      exact hunclosed _ hcloses.closes
  | @short p _ hopens hnot _ _ _ =>
      obtain ⟨more, rfl⟩ := hopens
      obtain ⟨rfl, -⟩ := List.cons_prefix_cons.1 htriple
      exact hnot htriple

/-- A literal that is read ends as the delimiter that opens the value demands, unless this is
three quotes that nothing closes. Then the literal consists of the first two of them. -/
theorem exact_iff_of_read? (h : read? value = some (literal, rest)) :
    ∃ q, isQuote q = true ∧ [q] <+: value ∧ (literal.Exact value ↔ ¬ Unclosed q value) ∧
      (Unclosed q value → literal = ⟨[q], []⟩) := by
  obtain ⟨-, hexact | ⟨q, hq, hunclosed, hempty⟩⟩ := read?_eq_some_iff.1 h
  · have hquote : ∃ q, isQuote q = true ∧ [q] <+: value := by
      cases hexact with
      | long hq hopens => exact ⟨_, hq, (List.prefix_append [_] _).trans hopens⟩
      | short hq hopens => exact ⟨_, hq, hopens⟩
    obtain ⟨q, hq, hopens⟩ := hquote
    have hclosed := hexact.not_unclosed q
    exact ⟨q, hq, hopens, iff_of_true hexact hclosed, fun hunclosed => absurd hunclosed hclosed⟩
  · refine ⟨q, hq, (List.prefix_append [_] _).trans hunclosed.1, ?_, fun _ => hempty⟩
    exact iff_of_false (fun hexact => hexact.not_unclosed q hunclosed) (not_not_intro hunclosed)

/-- A well-formed literal begins with its quote. -/
theorem WellFormed.take_delimiter {q : Char} (h : literal.WellFormed q) :
    literal.delimiter.take 1 = [q] := by
  cases h with
  | short _ hdelimiter => rw [hdelimiter]; rfl
  | long _ hdelimiter => rw [hdelimiter]; rfl

/-- A well-formed literal is read whole, unless it is followed by a quote. -/
theorem WellFormed.read? {q : Char} (h : literal.WellFormed q)
    (hrest : rest.head?.any isQuote = false) :
    Literal.read? (literal.text ++ rest) = some (literal, rest) := by
  refine read?_eq_some_iff.2 ⟨rfl, .inl ?_⟩
  have hvalue : literal.text ++ rest =
      literal.delimiter ++ (literal.body ++ (literal.delimiter ++ rest)) := by
    simp [Literal.text]
  cases h with
  | short hq hdelimiter hbody =>
      rw [hdelimiter] at hvalue
      refine .short hq ⟨_, hvalue.symm⟩ ?_ hdelimiter ?_ (List.prefix_append _ _)
      · -- The second character is the body's first one, or the body is empty and no third
        -- quote follows.
        rw [hvalue]
        rintro ⟨more, hmore⟩
        obtain ⟨-, hmore⟩ := List.cons.inj hmore
        exact not_quotes_of_isBody hq hbody hrest ⟨more, hmore⟩
      · rw [hvalue]
        exact (closesAt_iff (delimits_quotes hq _)).2 ⟨literal.body, rest, hbody, rfl, rfl⟩
  | long hq hdelimiter hbody =>
      rw [hdelimiter] at hvalue
      refine .long hq ⟨_, hvalue.symm⟩ hdelimiter ?_ (List.prefix_append _ _)
      rw [hvalue]
      exact (closesAt_iff (delimits_quotes hq _)).2 ⟨literal.body, rest, hbody, rfl, rfl⟩

end Values

end Literal

end Source

end SdkUpgrade

/-!
# Texts

A text is a list of characters, and every offset and length counts characters. This module has
the operations on texts that need no character class: what follows a given beginning or precedes
a given end, splitting at a separator, joining, and the first occurrences in a list.
-/

namespace SdkUpgrade

/-- A text is the list of its characters. -/
abbrev Text := List Char

/-- A string may be written where a text is expected. -/
instance : Coe String Text := ⟨String.toList⟩

namespace Text

/-- What follows `lead` in `text`, if the text begins with it. -/
def after? : (lead text : Text) → Option Text
  | [], text => some text
  | _ :: _, [] => none
  | c :: lead, d :: text => if c = d then after? lead text else none

/-- What precedes `tail` in `text`, if the text ends with it. -/
def before? (tail text : Text) : Option Text :=
  (after? tail.reverse text.reverse).map List.reverse

/-- The text ends with `tail`. -/
def endsWith (tail text : Text) : Bool :=
  (before? tail text).isSome

/-- Reading past `lead` succeeds exactly on the texts that begin with it. -/
theorem after?_eq_some_iff {lead text rest : Text} :
    after? lead text = some rest ↔ text = lead ++ rest := by
  induction lead generalizing text with
  | nil => simp [after?, eq_comm]
  | cons c lead ih =>
      cases text with
      | nil => simp [after?]
      | cons d text =>
          by_cases h : c = d
          · subst h
            simp [after?, ih]
          · simp [after?, h, Ne.symm h]

/-- A beginning can be read back off. -/
@[simp] theorem after?_append (lead rest : Text) : after? lead (lead ++ rest) = some rest :=
  after?_eq_some_iff.2 rfl

/-- Cutting `tail` off succeeds exactly on the texts that end with it. -/
theorem before?_eq_some_iff {tail text rest : Text} :
    before? tail text = some rest ↔ text = rest ++ tail := by
  constructor
  · intro h
    obtain ⟨rev, hrev, rfl⟩ := Option.map_eq_some_iff.1 h
    have := after?_eq_some_iff.1 hrev
    simpa using congrArg List.reverse this
  · rintro rfl
    simp [before?]

/-- The pieces of a text between the occurrences of a separator. There is always at least one
piece, and the pieces joined by the separator are the text. -/
def split (separator : Char) : Text → List Text
  | [] => [[]]
  | c :: text =>
      if c = separator then [] :: split separator text
      else
        match split separator text with
        | [] => [[c]]
        | piece :: pieces => (c :: piece) :: pieces

/-- The texts one after the other, with `glue` between neighbours. -/
def join (glue : Text) : List Text → Text
  | [] => []
  | [text] => text
  | text :: next :: texts => text ++ glue ++ join glue (next :: texts)

/-- A split leaves at least one piece. -/
theorem split_ne_nil (separator : Char) (text : Text) : split separator text ≠ [] := by
  cases text with
  | nil => simp [split]
  | cons c text =>
      simp only [split]
      split
      · simp
      · split <;> simp

/-- The pieces of a split, joined by the separator, are the text. -/
theorem join_split (separator : Char) (text : Text) :
    join [separator] (split separator text) = text := by
  induction text with
  | nil => rfl
  | cons c text ih =>
      obtain ⟨piece, pieces, hp⟩ := List.exists_cons_of_ne_nil (split_ne_nil separator text)
      rw [hp] at ih
      by_cases hc : c = separator
      · simp [split, hc, hp, join, ih]
      · cases pieces with
        | nil => simpa [split, hc, hp, join] using ih
        | cons next pieces => simpa [split, hc, hp, join] using ih

/-- The elements of a list, each once, in the order of their first occurrence. -/
def distinct {α : Type} [DecidableEq α] : List α → List α
  | [] => []
  | x :: xs => x :: (distinct xs).filter (· ≠ x)

/-- Leaving out repetitions loses no element. -/
theorem mem_distinct {α : Type} [DecidableEq α] {x : α} {xs : List α} :
    x ∈ distinct xs ↔ x ∈ xs := by
  induction xs with
  | nil => simp [distinct]
  | cons y xs ih =>
      by_cases h : x = y <;> simp [distinct, ih, h]

/-- No element is left twice. -/
theorem nodup_distinct {α : Type} [DecidableEq α] (xs : List α) : (distinct xs).Nodup := by
  induction xs with
  | nil => simp [distinct]
  | cons x xs ih =>
      rw [distinct, List.nodup_cons]
      exact ⟨by simp, ih.filter _⟩

/-- Whether a text is one of the given texts can be decided. -/
instance decidableMem (text : Text) (texts : List Text) : Decidable (text ∈ texts) :=
  List.instDecidableMemOfLawfulBEq text texts

/-- The order of texts by their code points: at the first difference the smaller code point comes
first, and a text comes before its continuations. -/
def le : Text → Text → Bool
  | [], _ => true
  | _ :: _, [] => false
  | c :: a, d :: b => if c = d then le a b else decide (c.toNat < d.toNat)

/-- Texts in the order of their code points. -/
def sorted (texts : List Text) : List Text :=
  texts.mergeSort le

/-- The order of texts holds between a text and itself. -/
theorem le_refl (a : Text) : le a a = true := by
  induction a with
  | nil => rfl
  | cons c a ih => simp [le, ih]

/-- Any two texts are comparable. -/
theorem le_total (a b : Text) : (le a b || le b a) = true := by
  induction a generalizing b with
  | nil => simp [le]
  | cons c a ih =>
      cases b with
      | nil => simp [le]
      | cons d b =>
          by_cases h : c = d
          · subst h
            simpa [le] using ih b
          · have hne : c.toNat ≠ d.toNat := fun hn => h (Char.toNat_inj.1 hn)
            simp only [le, h, Ne.symm h, if_false, Bool.or_eq_true, decide_eq_true_eq]
            omega

/-- Texts that precede each other are equal. -/
theorem le_antisymm {a b : Text} (hab : le a b = true) (hba : le b a = true) : a = b := by
  induction a generalizing b with
  | nil =>
      cases b with
      | nil => rfl
      | cons d b => simp [le] at hba
  | cons c a ih =>
      cases b with
      | nil => simp [le] at hab
      | cons d b =>
          by_cases h : c = d
          · subst h
            simp only [le, if_true] at hab hba
            rw [ih hab hba]
          · simp only [le, h, Ne.symm h, if_false, decide_eq_true_eq] at hab hba
            omega

/-- The order of texts is transitive. -/
theorem le_trans {a b c : Text} (hab : le a b = true) (hbc : le b c = true) : le a c = true := by
  induction a generalizing b c with
  | nil => simp [le]
  | cons x a ih =>
      cases b with
      | nil => simp [le] at hab
      | cons y b =>
          cases c with
          | nil => simp [le] at hbc
          | cons z c =>
              by_cases hxy : x = y
              · subst hxy
                by_cases hxz : x = z
                · subst hxz
                  simp only [le, if_true] at hab hbc ⊢
                  exact ih hab hbc
                · simp only [le, hxz, if_false] at hbc ⊢
                  exact hbc
              · simp only [le, hxy, if_false, decide_eq_true_eq] at hab
                by_cases hyz : y = z
                · subst hyz
                  simpa [le, hxy] using hab
                · simp only [le, hyz, if_false, decide_eq_true_eq] at hbc
                  have hxz : x ≠ z := by
                    rintro rfl
                    omega
                  simp only [le, hxz, if_false, decide_eq_true_eq]
                  omega

/-- Sorting loses no text and adds none. -/
theorem sorted_perm (texts : List Text) : (sorted texts).Perm texts :=
  List.mergeSort_perm texts le

/-- Sorted texts stand in the order of their code points. -/
theorem pairwise_sorted (texts : List Text) : (sorted texts).Pairwise (le · ·) := by
  have htrans : ∀ a b c : Text, le a b = true → le b c = true → le a c = true :=
    fun _ _ _ hab hbc => le_trans hab hbc
  exact List.pairwise_mergeSort htrans le_total texts

/-- The texts of `texts` that `known` does not have, each once, in the order of their code
points. -/
def unknownAmong (known texts : List Text) : List Text :=
  sorted (distinct (texts.filter fun text => decide (text ∉ known)))

/-- A list of names as it is shown in messages. -/
def enumeration (texts : List Text) : Text :=
  join ", ".toList texts

/-- The decimal digits of a natural number. -/
def ofNat (n : Nat) : Text :=
  Nat.toDigits 10 n

/-- The decimal digits of an integer, with a minus sign if it is negative. -/
def ofInt : Int → Text
  | .ofNat n => ofNat n
  | .negSucc n => '-' :: ofNat (n + 1)

end Text

end SdkUpgrade

import SdkUpgrade.Proofs.Residue
import SdkUpgrade.Proofs.Spellings

/-!
# The grammar of calls and accesses

A pass goes from left to right and does not look again at what a hit covers. For calls and
accesses nothing is lost by that: none of their hits begins inside another one, they are
`Separate`, and so the edits of a rule are exactly the hits at all places of the text
(`Rule.mem_edits_iff`). This turns what a rule accepts at one place into a grammar of its edits.
`Rule.call_edits_iff` gives it for the calls: a longest run of name characters that ends in a
retired method, in front of a parenthesis. `Rule.access_edits_iff` gives it for the two ways to
reach the text of a choice, which end in the same path.
-/

namespace SdkUpgrade

open Text Source

/-! ## Hits that do not begin inside another one -/

/-- No hit begins behind the first character of another one. -/
def Separate (find? : Cursor → Option Hit) : Prop :=
  ∀ (before rest first second : Text) (hit : Hit),
    find? ⟨before, hit.matched ++ rest⟩ = some hit → hit.matched = first ++ second →
    first ≠ [] → second ≠ [] → find? ⟨first.reverse ++ before, second ++ rest⟩ = none

/-- The edit of a rule that writes `new` in place of `old` behind `front`. -/
def Edit.behind (ruleId front old new : Text) : Edit :=
  ⟨ruleId, front.length, front.length + old.length, old, new⟩

section Separate

variable {find? : Cursor → Option Hit}

/-- The edits behind a hit are edits of the whole pass. -/
theorem mem_editsFrom_cons_hit {ruleId : Text} {offset : Nat} {hit : Hit} {pieces : List Piece}
    {edit : Edit} (h : edit ∈ editsFrom ruleId (offset + hit.matched.length) pieces) :
    edit ∈ editsFrom ruleId offset (.hit hit :: pieces) := by
  simp only [editsFrom]
  split
  · exact h
  · exact List.mem_cons_of_mem _ h

/-- A pass comes to every hit that changes something. -/
theorem mem_editsFrom_of_hit (hf : Recognises find?) (hs : Separate find?) (ruleId : Text)
    (before after : Text) : ∀ {passed rest : Text} {hit : Hit},
      after = passed ++ (hit.matched ++ rest) →
      find? ⟨passed.reverse ++ before, hit.matched ++ rest⟩ = some hit →
      hit.replacement ≠ hit.matched →
      Edit.behind ruleId (passed.reverse ++ before) hit.matched hit.replacement ∈
        editsFrom ruleId before.length (pieces find? 0 before after) := by
  induction before, after using pass_induction hf with
  | nil before =>
      intro passed rest hit hsplit hh _
      have hnil := (List.append_eq_nil_iff.1 (List.append_eq_nil_iff.1 hsplit.symm).2).1
      exact absurd hnil (hf _ _ hh).1
  | kept before c after hc ih =>
      intro passed rest hit hsplit hh hchange
      simp only [pieces, hc, editsFrom]
      cases passed with
      | nil =>
          rw [List.nil_append] at hsplit
          rw [List.reverse_nil, List.nil_append, ← hsplit, hc] at hh
          exact absurd hh (by simp)
      | cons d passed =>
          obtain ⟨rfl, hrest⟩ := List.cons.inj hsplit
          have hplace : (c :: passed).reverse ++ before = passed.reverse ++ c :: before := by simp
          rw [hplace] at hh ⊢
          exact ih hrest hh hchange
  | hit before found rest hfound ih =>
      intro passed more hit hsplit hh hchange
      rw [pieces_hit hf hfound]
      -- The place lies behind the hit, or it would be a place inside the hit.
      have hbehind : ∀ inner, passed = found.matched ++ inner →
          rest = inner ++ (hit.matched ++ more) →
          Edit.behind ruleId (passed.reverse ++ before) hit.matched hit.replacement ∈
            editsFrom ruleId before.length
              (.hit found :: pieces find? 0 (found.matched.reverse ++ before) rest) := by
        rintro inner rfl hrest
        have hplace : (found.matched ++ inner).reverse ++ before =
            inner.reverse ++ (found.matched.reverse ++ before) := by simp
        rw [hplace] at hh ⊢
        have hmem := ih hrest hh hchange
        rw [List.length_append, List.length_reverse, Nat.add_comm] at hmem
        exact mem_editsFrom_cons_hit hmem
      rcases List.append_eq_append_iff.1 hsplit with
        ⟨inner, hpassed, hrest⟩ | ⟨inner, hinner, hrest⟩
      · exact hbehind inner hpassed hrest
      · by_cases hnil : inner = []
        · subst hnil
          exact hbehind [] (by simpa using hinner.symm) (by simpa using hrest.symm)
        · cases passed with
          | nil =>
              rw [List.nil_append] at hsplit
              rw [List.reverse_nil, List.nil_append, ← hsplit, hfound] at hh
              obtain rfl := Option.some.inj hh
              simp only [editsFrom, if_neg hchange]
              exact List.mem_cons_self
          | cons d passed =>
              have hnone := hs _ _ _ _ _ hfound hinner (by simp) hnil
              rw [← hrest, hh] at hnone
              exact absurd hnone (by simp)

/-- The hits of a recogniser of names are separate if it answers only at names with a certain
behind, and if no name inside a hit has that behind. -/
theorem separate_of_names {P : Text → Prop}
    (hname : ∀ {c : Cursor} {hit : Hit}, find? c = some hit →
      ∃ name behind, dottedName? c = some (name, behind) ∧ P behind)
    (htail : ∀ {before rest : Text} {hit : Hit}, find? ⟨before, hit.matched ++ rest⟩ = some hit →
      ∃ name tail, hit.matched = name ++ tail ∧ (∀ c ∈ name, isNameChar c = true) ∧
        AllNames (fun _ behind => ¬ P behind) false tail rest) : Separate find? := by
  intro before rest first second hit hh hsplit hfirst hsecond
  cases hother : find? ⟨first.reverse ++ before, second ++ rest⟩ with
  | none => rfl
  | some other =>
      exfalso
      obtain ⟨inner, behind, hinner, hP⟩ := hname hother
      obtain ⟨name, tail, hmatched, hchars, hall⟩ := htail hh
      rcases List.append_eq_append_iff.1 (hsplit.symm.trans hmatched) with
        ⟨more, rfl, rfl⟩ | ⟨more, rfl, rfl⟩
      · -- Inside the name the character in front belongs to it.
        have hfront := (dottedName?_eq_some_iff.1 hinner).1
        have hlast :=
          head?_reverse_name hfirst (fun c hc => hchars c (List.mem_append_left _ hc)) before
        rw [hlast] at hfront
        exact absurd hfront (by simp)
      · have hplace : dottedName? ⟨more.reverse ++ (name.reverse ++ before), second ++ rest⟩ =
            some (inner, behind) := by simpa using hinner
        exact hall.at_place rfl hsecond hplace hP

end Separate

namespace Rule

variable {rule : Rule} {radius : Option Nat} {text : Text} {edit : Edit}

/-- If the hits of a rule are separate, its edits are the hits at all places of the text
that change something. -/
theorem mem_edits_iff (hs : Separate (rule.kind.hit? radius)) : edit ∈ rule.edits radius text ↔
    ∃ front after, ∃ hit : Hit, text = front ++ after ∧
      rule.kind.hit? radius ⟨front.reverse, after⟩ = some hit ∧ hit.replacement ≠ hit.matched ∧
      edit = Edit.behind rule.id front hit.matched hit.replacement := by
  have hf := rule.kind.recognises_hit? radius
  constructor
  · intro hmem
    have hchange := ((rule.groupFits_edits radius text).fits edit hmem).changes
    obtain ⟨front, rest, hit, hsource, hh, rfl⟩ := exists_of_mem_editsFrom hf [] text hmem
    refine ⟨front.reverse, hit.matched ++ rest, hit, hsource.symm, ?_, hchange.symm, ?_⟩
    · rw [List.reverse_reverse]
      exact hh
    · simp [Edit.behind]
  · rintro ⟨front, after, hit, hsplit, hh, hchange, rfl⟩
    obtain ⟨rest, rfl⟩ := (hf _ _ hh).2
    have hmem := mem_editsFrom_of_hit hf hs rule.id [] text hsplit (by simpa using hh) hchange
    have hsame : Edit.behind rule.id (front.reverse ++ []) hit.matched hit.replacement =
        Edit.behind rule.id front hit.matched hit.replacement := by simp [Edit.behind]
    rw [hsame] at hmem
    exact hmem

/-- A text that is one hit gives way to its replacement. -/
theorem apply_of_hit {hit : Hit} (h : rule.kind.hit? radius ⟨[], text⟩ = some hit)
    (hall : hit.matched = text) : rule.apply radius text = hit.replacement := by
  have hf := rule.kind.recognises_hit? radius
  have hwritten := @rewritten_hit _ hf [] [] hit (by rw [List.append_nil, hall]; exact h)
  rw [List.append_nil, hall] at hwritten
  show rewritten (rule.kind.hit? radius) [] text = hit.replacement
  rw [hwritten, rewritten_nil, List.append_nil]

end Rule

/-! ## Runs of name characters -/

/-- A run of name characters in a text that is longest on both sides and begins as names do, with
what stands in front of it and behind it. -/
structure NameRun (text front run rest : Text) : Prop where
  split : text = front ++ (run ++ rest)
  chars : ∀ c ∈ run, isNameChar c = true
  start : run.head?.any isNameStart = true
  front_end : front.getLast?.any isNameChar = false
  rest_start : rest.head?.any isNameChar = false

/-- The dotted names of a text are its longest runs of name characters that begin as names do. -/
theorem nameRun_iff {text front run rest : Text} : NameRun text front run rest ↔
    ∃ after, text = front ++ after ∧ dottedName? ⟨front.reverse, after⟩ = some (run, rest) := by
  simp only [dottedName?_eq_some_iff, List.head?_reverse]
  constructor
  · rintro ⟨hsplit, hchars, hstart, hfront, hrest⟩
    exact ⟨run ++ rest, hsplit, hfront, rfl, hstart, hchars, hrest⟩
  · rintro ⟨after, hsplit, hfront, rfl, hstart, hchars, hrest⟩
    exact ⟨hsplit, hchars, hstart, hfront, hrest⟩

/-- The last segment of a name is the last piece between its dots. -/
theorem getLast?_split_dot (name : Text) :
    (Text.split '.' name).getLast? = some (lastSegment name) := by
  by_cases hdot : '.' ∈ name
  · obtain ⟨back, front, hsplit, hback⟩ :=
      List.eq_append_cons_of_mem (List.mem_reverse.2 hdot)
    have hname : name = front.reverse ++ '.' :: back.reverse := by
      simpa using congrArg List.reverse hsplit
    have hlast : '.' ∉ back.reverse := fun hmem => hback (List.mem_reverse.1 hmem)
    obtain ⟨pieces, last, head, more, -, hsecond, hboth⟩ :=
      exists_split_append '.' front.reverse ('.' :: back.reverse)
    rw [Text.split, if_pos rfl, split_eq_singleton hlast] at hsecond
    obtain ⟨rfl, rfl⟩ := List.cons.inj hsecond
    rw [hname, hboth, lastSegment_append hlast]
    simp
  · have hall : ∀ c ∈ name.reverse, decide (c ≠ '.') = true := by
      intro c hc
      rw [decide_eq_true_eq]
      rintro rfl
      exact hdot (List.mem_reverse.1 hc)
    rw [split_eq_singleton hdot, lastSegment, List.takeWhile_eq_self_iff.2 hall]
    simp

/-! ## Calls -/

/-- A rule for calls retires a method behind a receiver in favour of another one. A completion
whose receiver ends in `chat` is a chat completion already. -/
inductive Retires : Kind → (receiver method modern : Text) → Prop where
  | completion {receiver : Text} : (Text.split '.' receiver).getLast? ≠ some "chat".toList →
      Retires .completionCall receiver ".Completion.create" ".chat.completions.create"
  | completions {receiver : Text} : (Text.split '.' receiver).getLast? ≠ some "chat".toList →
      Retires .completionCall receiver ".completions.create" ".chat.completions.create"
  | chatCompletion {receiver : Text} :
      Retires .chatCompletionCall receiver ".ChatCompletion.create" ".chat.completions.create"
  | embedding {receiver : Text} :
      Retires .embeddingCall receiver ".Embedding.create" ".embeddings.create"

namespace RetiredCall

variable {methods : List Text} {c : Cursor} {call : RetiredCall} {found : Hit}

/-- If a name splits at each of the methods behind any receiver, the calls of these methods stand
exactly at the names that end in one of them. -/
theorem at?_eq_some_iff_of_split (hsplit : ∀ receiver, ∀ method ∈ methods,
      splitName? methods (receiver ++ method) = some (receiver, method)) :
    at? methods c = some call ↔ call.receiver ≠ [] ∧ IsGap call.gap ∧ call.method ∈ methods ∧
      ∃ rest, dottedName? c = some (call.receiver ++ call.method, call.gap ++ '(' :: rest) := by
  refine ⟨of_at?_eq_some, ?_⟩
  rintro ⟨hne, hg, hmethod, rest, hd⟩
  exact at?_eq_some_iff.2 ⟨hne, hg, _, rest, hd, hsplit _ _ hmethod⟩

/-- A rule with one method takes the names that end in it, in front of a parenthesis. -/
theorem map_hit_eq_some_iff {method modern : Text} :
    (at? [method] c).map (hit modern) = some found ↔ ∃ call : RetiredCall, call.method = method ∧
      call.receiver ≠ [] ∧ IsGap call.gap ∧ found = hit modern call ∧
      ∃ rest, dottedName? c = some (call.receiver ++ method, call.gap ++ '(' :: rest) := by
  have hsplit : ∀ receiver, ∀ found ∈ [method],
      splitName? [method] (receiver ++ found) = some (receiver, found) := by
    intro receiver found hfound
    rw [List.mem_singleton.1 hfound, splitName?, before?_eq_some_iff.2 rfl]
  simp only [Option.map_eq_some_iff, at?_eq_some_iff_of_split hsplit, List.mem_singleton]
  constructor
  · rintro ⟨call, ⟨hne, hg, rfl, hrest⟩, rfl⟩
    exact ⟨call, rfl, hne, hg, rfl, hrest⟩
  · rintro ⟨call, rfl, hne, hg, rfl, hrest⟩
    exact ⟨call, ⟨hne, hg, rfl, hrest⟩, rfl⟩

/-- The rule for completions takes the names that end in one of its methods behind a receiver
other than a chat, in front of a parenthesis. -/
theorem completionHit?_eq_some_iff : completionHit? c = some found ↔ ∃ call : RetiredCall,
    call.method ∈ [".Completion.create".toList, ".completions.create".toList] ∧
      lastSegment call.receiver ≠ "chat".toList ∧ call.receiver ≠ [] ∧ IsGap call.gap ∧
      found = hit chatCompletion call ∧
      ∃ rest, dottedName? c = some (call.receiver ++ call.method, call.gap ++ '(' :: rest) := by
  have hsplit :
      ∀ receiver, ∀ method ∈ [".Completion.create".toList, ".completions.create".toList],
        splitName? [".Completion.create", ".completions.create"] (receiver ++ method) =
        some (receiver, method) := by
    intro receiver method hmethod
    simp only [List.mem_cons, List.not_mem_nil, or_false] at hmethod
    rcases hmethod with rfl | rfl
    · exact splitName?_completion.1
    · exact splitName?_completion.2
  simp only [completionHit?, Option.map_eq_some_iff, Option.filter_eq_some_iff,
    at?_eq_some_iff_of_split hsplit, decide_eq_true_eq]
  constructor
  · rintro ⟨call, ⟨⟨hne, hg, hmethod, hrest⟩, hchat⟩, rfl⟩
    exact ⟨call, hmethod, hchat, hne, hg, rfl, hrest⟩
  · rintro ⟨call, hmethod, hchat, hne, hg, rfl, hrest⟩
    exact ⟨call, ⟨⟨hne, hg, hmethod, hrest⟩, hchat⟩, rfl⟩

end RetiredCall

namespace Kind

/-- The kinds of change that are about calls. -/
def calls : List Kind :=
  [completionCall, chatCompletionCall, embeddingCall]

variable {kind : Kind} {radius : Option Nat} {c : Cursor} {found : Hit}

/-- A rule for calls takes a name that ends in a method which it retires, in
front of a parenthesis. -/
theorem call_hit?_eq_some_iff (hkind : kind ∈ calls) : kind.hit? radius c = some found ↔
    ∃ receiver method modern gap rest, Retires kind receiver method modern ∧ receiver ≠ [] ∧
      IsGap gap ∧ dottedName? c = some (receiver ++ method, gap ++ '(' :: rest) ∧
      found = ⟨receiver ++ method ++ gap ++ ['('], receiver ++ modern ++ gap ++ ['(']⟩ := by
  have hchat : ∀ {receiver : Text}, (Text.split '.' receiver).getLast? ≠ some "chat".toList ↔
      lastSegment receiver ≠ "chat".toList := by
    intro receiver
    rw [getLast?_split_dot, ne_eq, Option.some.injEq]
  simp only [calls, List.mem_cons, List.not_mem_nil, or_false] at hkind
  rcases hkind with rfl | rfl | rfl
  · refine RetiredCall.completionHit?_eq_some_iff.trans ⟨?_, ?_⟩
    · rintro ⟨⟨receiver, method, gap⟩, hmethod, hsegment, hne, hg, rfl, rest, hd⟩
      refine ⟨receiver, method, RetiredCall.chatCompletion, gap, rest, ?_, hne, hg, hd, rfl⟩
      simp only [List.mem_cons, List.not_mem_nil, or_false] at hmethod
      rcases hmethod with rfl | rfl
      · exact .completion (hchat.2 hsegment)
      · exact .completions (hchat.2 hsegment)
    · rintro ⟨receiver, method, modern, gap, rest, hretires, hne, hg, hd, rfl⟩
      cases hretires with
      | completion hsegment =>
          exact ⟨⟨receiver, _, gap⟩, List.mem_cons_self, hchat.1 hsegment, hne, hg, rfl, rest, hd⟩
      | completions hsegment =>
          exact ⟨⟨receiver, _, gap⟩, List.mem_cons_of_mem _ List.mem_cons_self, hchat.1 hsegment,
            hne, hg, rfl, rest, hd⟩
  · refine RetiredCall.map_hit_eq_some_iff.trans ⟨?_, ?_⟩
    · rintro ⟨⟨receiver, _, gap⟩, rfl, hne, hg, rfl, rest, hd⟩
      exact ⟨receiver, _, _, gap, rest, .chatCompletion, hne, hg, hd, rfl⟩
    · rintro ⟨receiver, method, modern, gap, rest, ⟨⟩, hne, hg, hd, rfl⟩
      exact ⟨⟨receiver, _, gap⟩, rfl, hne, hg, rfl, rest, hd⟩
  · refine RetiredCall.map_hit_eq_some_iff.trans ⟨?_, ?_⟩
    · rintro ⟨⟨receiver, _, gap⟩, rfl, hne, hg, rfl, rest, hd⟩
      exact ⟨receiver, _, _, gap, rest, .embedding, hne, hg, hd, rfl⟩
    · rintro ⟨receiver, method, modern, gap, rest, ⟨⟩, hne, hg, hd, rfl⟩
      exact ⟨⟨receiver, _, gap⟩, rfl, hne, hg, rfl, rest, hd⟩

/-- No call begins inside another one up to its parenthesis. -/
theorem separate_call (hkind : kind ∈ calls) : Separate (kind.hit? radius) := by
  refine @separate_of_names _ (fun _ => True) ?_ ?_
  · intro c hit hh
    obtain ⟨receiver, method, -, gap, rest, -, -, -, hd, -⟩ := (call_hit?_eq_some_iff hkind).1 hh
    exact ⟨_, _, hd, trivial⟩
  · intro before rest hit hh
    obtain ⟨receiver, method, modern, gap, more, -, -, hg, hd, hhit⟩ :=
      (call_hit?_eq_some_iff hkind).1 hh
    have hchars := (dottedName?_eq_some_iff.1 hd).2.2.2.1
    refine ⟨receiver ++ method, gap ++ ['('], by simp [hhit], hchars, ?_⟩
    refine allNames_of_not_start fun d hd => isNameStart_of_isNameChar_eq_false ?_
    rcases List.mem_append.1 hd with hd | hd
    · exact isNameChar_of_isBlank (hg d hd)
    · rw [List.mem_singleton.1 hd]
      decide

end Kind

/-- No method is retired in favour of itself. -/
theorem Retires.ne {kind : Kind} {receiver method modern : Text}
    (h : Retires kind receiver method modern) : method ≠ modern := by
  cases h <;> decide

/-- The edits of a rule for calls. There is one for each longest run of name characters
that begins as names do, consists of a receiver and a method that the rule retires, and
has a parenthesis behind it, whitespace apart. It takes all of this and writes the new
method behind the receiver. -/
theorem Rule.call_edits_iff {kind : Kind} (hkind : kind ∈ Kind.calls) (radius : Option Nat)
    (text : Text) :
    (∀ edit, edit ∈ (Rule.ofKind kind).edits radius text ↔
      ∃ front run gap behind receiver method modern,
        NameRun text front run (gap ++ '(' :: behind) ∧ IsGap gap ∧
        run = receiver ++ method ∧ receiver ≠ [] ∧ Retires kind receiver method modern ∧
        edit = Edit.behind kind.id front (run ++ gap ++ ['('])
          (receiver ++ modern ++ gap ++ ['('])) ∧
    ((Rule.ofKind kind).edits radius text).Pairwise fun first second =>
      first.stop ≤ second.start := by
  refine ⟨fun edit => ?_, ((Rule.ofKind kind).groupFits_edits radius text).ascending⟩
  rw [mem_edits_iff (Kind.separate_call hkind)]
  constructor
  · rintro ⟨front, after, hit, hsplit, hh, -, rfl⟩
    obtain ⟨receiver, method, modern, gap, behind, hretires, hne, hg, hd, rfl⟩ :=
      (Kind.call_hit?_eq_some_iff hkind).1 hh
    exact ⟨front, _, gap, behind, receiver, method, modern, nameRun_iff.2 ⟨after, hsplit, hd⟩, hg,
      rfl, hne, hretires, rfl⟩
  · rintro ⟨front, run, gap, behind, receiver, method, modern, hrun, hg, rfl, hne, hretires, rfl⟩
    obtain ⟨after, hsplit, hd⟩ := nameRun_iff.1 hrun
    refine ⟨front, after, _, hsplit, (Kind.call_hit?_eq_some_iff hkind).2
      ⟨receiver, method, modern, gap, behind, hretires, hne, hg, hd, rfl⟩, ?_, rfl⟩
    intro hsame
    have hmethods : modern = method := by simpa using hsame
    exact hretires.ne hmethods.symm

/-- A receiver that only ends in `chat` is no chat, and whitespace may stand in front of the
parenthesis. The chat completion behind it is left alone. -/
theorem Rule.call_edits_iff_spaced :
    let text : Text := "xchat.completions.create (1, a.chat.completions.create(2))"
    Kind.completionCall ∈ Kind.calls ∧
      Edit.behind "call-shape.completion" [] "xchat.completions.create ("
        "xchat.chat.completions.create (" ∈ (Rule.ofKind .completionCall).edits none text := by
  intro text
  have hkind : Kind.completionCall ∈ Kind.calls := by decide
  refine ⟨hkind,
    ((Rule.call_edits_iff hkind none text).1 _).2 ⟨[], "xchat.completions.create", " ",
      "1, a.chat.completions.create(2))", "xchat", ".completions.create",
      ".chat.completions.create",
    ⟨?_, ?_, ?_, ?_, ?_⟩, ?_, ?_, ?_, .completions ?_, ?_⟩⟩
  · decide
  · exact List.all_eq_true.1 (by decide)
  · decide
  · decide
  · decide
  · exact List.all_eq_true.1 (by decide)
  · decide
  · decide
  · decide
  · decide

/-! ## Accesses -/

/-- A word between two quotes. -/
def betweenQuotes (quote : Char) (word : Text) : Text :=
  [quote] ++ word ++ [quote]

/-- The subscripts that lead to the text of a choice, with the quotes around the two keys. -/
def subscriptsText (first : Char) (index : Text) (second : Char) : Text :=
  "[" ++ betweenQuotes first "choices" ++ "][" ++ index ++ "][" ++
    betweenQuotes second "text" ++ "]"

/-- The brackets and the attribute behind the choices, character by character. -/
theorem attributesText_append (index behind : Text) :
    "[" ++ index ++ "].text" ++ behind = '[' :: (index ++ ']' :: '.' :: ("text" ++ behind)) := by
  simp

/-- The subscripts, character by character. -/
theorem subscriptsText_append (q : Char) (index : Text) (p : Char) (behind : Text) :
    subscriptsText q index p ++ behind = '[' :: q :: ("choices" ++ q :: ']' :: '[' ::
      (index ++ ']' :: '[' :: p :: ("text" ++ p :: ']' :: behind))) := by
  simp [subscriptsText, betweenQuotes]

section Names

variable {rest more index : Text}

/-- No name in an index between brackets has an opening bracket behind it. -/
theorem allNames_index (hindex : IsIndex index)
    (h : AllNames (fun _ behind => ¬ behind.head? = some '[') false more rest) :
    AllNames (fun _ behind => ¬ behind.head? = some '[') false ('[' :: (index ++ ']' :: more))
      rest := by
  obtain ⟨left, word, right, hl, -, hw, hr, rfl⟩ := hindex
  have hclose : ∃ d behind, right ++ ']' :: (more ++ rest) = d :: behind ∧
      isNameChar d = false ∧ d ≠ '[' := by
    cases right with
    | nil => exact ⟨']', more ++ rest, rfl, by decide, by decide⟩
    | cons d right =>
        have hd := hr d List.mem_cons_self
        refine ⟨d, _, rfl, isNameChar_of_isBlank hd, ?_⟩
        rintro rfl
        exact absurd hd (by decide)
  obtain ⟨d, behind, hbehind, hname, hbracket⟩ := hclose
  refine allNames_skip (by decide) ?_
  rw [List.append_assoc, List.append_assoc]
  refine allNames_gap (fun c hc => isNameChar_of_isBlank (hl c hc)) ?_
  rw [allNames_append]
  refine ⟨allNames_name (fun c hc => isNameChar_of_isWord (hw c hc)) ?_ fun _ => ?_, .of_false ?_⟩
  · rw [List.append_assoc, List.cons_append, hbehind]
    exact hname
  · rw [List.append_assoc, List.cons_append, hbehind]
    simpa using hbracket
  · exact allNames_gap (fun c hc => isNameChar_of_isBlank (hr c hc)) (allNames_skip (by decide) h)

/-- No name between quotes has an opening bracket behind it. -/
theorem allNames_quoted {q : Char} {word : Text} (hq : isQuote q = true)
    (hword : word.all isNameChar = true)
    (h : AllNames (fun _ behind => ¬ behind.head? = some '[') false more rest) :
    AllNames (fun _ behind => ¬ behind.head? = some '[') false (q :: (word ++ q :: more))
      rest := by
  have hname := isNameChar_of_isQuote hq
  refine allNames_skip hname (allNames_word (List.all_eq_true.1 hword) hname (fun _ => ?_) h)
  rcases isQuote_iff.1 hq with rfl | rfl <;> simp

end Names

namespace ChoiceAccess

variable {c : Cursor} {found : Hit}

/-- The rule for attributes takes a name that ends in `choices`, an index and
the attribute `text`. -/
theorem attributesHit?_eq_some_iff : attributesHit? c = some found ↔
    ∃ receiver index behind : Text, receiver ≠ [] ∧ IsIndex index ∧
      behind.head?.any isWord = false ∧ dottedName? c = some (receiver ++ ".choices",
        "[" ++ index ++ "].text" ++ behind) ∧
      found = ⟨receiver ++ ".choices" ++ "[" ++ index ++ "].text",
        receiver ++ ".choices[" ++ index ++ "].message.content"⟩ := by
  simp only [attributesHit?, Option.map_eq_some_iff, attributesAt?_eq_some_iff,
    attributesText_append]
  constructor
  · rintro ⟨⟨receiver, form, index⟩, ⟨rfl, hne, hindex, behind, hbehind, hd⟩, rfl⟩
    exact ⟨receiver, index, behind, hne, hindex, hbehind, hd, by simp [hit, text, modern]⟩
  · rintro ⟨receiver, index, behind, hne, hindex, hbehind, hd, rfl⟩
    exact ⟨⟨receiver, .attributes, index⟩, ⟨rfl, hne, hindex, behind, hbehind, hd⟩,
      by simp [hit, text, modern]⟩

/-- The rule for subscripts takes a name, two quoted keys and an index between them. -/
theorem subscriptsHit?_eq_some_iff : subscriptsHit? c = some found ↔
    ∃ receiver q index p behind, isQuote q = true ∧ isQuote p = true ∧ IsIndex index ∧
      dottedName? c = some (receiver, subscriptsText q index p ++ behind) ∧
      found = ⟨receiver ++ subscriptsText q index p,
        receiver ++ ".choices[" ++ index ++ "].message.content"⟩ := by
  simp only [subscriptsHit?, Option.map_eq_some_iff, subscriptsAt?_eq_some_iff,
    subscriptsText_append]
  constructor
  · rintro ⟨⟨receiver, form, index⟩, ⟨hindex, q, p, behind, hq, hp, rfl, hd⟩, rfl⟩
    exact ⟨receiver, q, index, p, behind, hq, hp, hindex, hd,
      by simp [hit, text, modern, subscriptsText, betweenQuotes]⟩
  · rintro ⟨receiver, q, index, p, behind, hq, hp, hindex, hd, rfl⟩
    exact ⟨⟨receiver, .subscripts q p, index⟩, ⟨hindex, q, p, behind, hq, hp, rfl, hd⟩,
      by simp [hit, text, modern, subscriptsText, betweenQuotes]⟩

/-- No access by attributes begins inside another one. -/
theorem separate_attributesHit? : Separate attributesHit? := by
  refine @separate_of_names _ (fun behind => behind.head? = some '[') ?_ ?_
  · intro c hit hh
    obtain ⟨receiver, index, behind, -, -, -, hd, -⟩ := attributesHit?_eq_some_iff.1 hh
    exact ⟨_, _, hd, rfl⟩
  · intro before rest hit hh
    obtain ⟨receiver, index, behind, -, hindex, -, hd, hhit⟩ := attributesHit?_eq_some_iff.1 hh
    refine ⟨receiver ++ ".choices", '[' :: (index ++ ']' :: '.' :: "text"), by simp [hhit],
      (dottedName?_eq_some_iff.1 hd).2.2.2.1, allNames_index hindex ?_⟩
    -- The attribute belongs to a dot, which begins no name.
    exact ⟨fun _ hstart => absurd hstart (by decide),
      allNames_inside (List.all_eq_true.1 (by decide))⟩

/-- No access by subscripts begins inside another one. -/
theorem separate_subscriptsHit? : Separate subscriptsHit? := by
  refine @separate_of_names _ (fun behind => behind.head? = some '[') ?_ ?_
  · intro c hit hh
    obtain ⟨receiver, q, index, p, behind, -, -, -, hd, -⟩ := subscriptsHit?_eq_some_iff.1 hh
    exact ⟨_, _, hd, rfl⟩
  · intro before rest hit hh
    obtain ⟨receiver, q, index, p, behind, hq, hp, hindex, hd, hhit⟩ :=
      subscriptsHit?_eq_some_iff.1 hh
    refine ⟨receiver, subscriptsText q index p ++ [], by simp [hhit],
      (dottedName?_eq_some_iff.1 hd).2.2.2.1, ?_⟩
    rw [subscriptsText_append]
    refine allNames_skip (by decide) (allNames_quoted hq (by decide)
      (allNames_skip (by decide) ?_))
    refine allNames_index hindex (allNames_skip (by decide) (allNames_quoted hp (by decide) ?_))
    exact allNames_skip (by decide) trivial

variable {receiver index : Text} {radius : Option Nat}

/-- An access by attributes becomes the path to the content of the message. -/
theorem apply_attributes (hrun : NameRun receiver [] receiver []) (hindex : IsIndex index) :
    (Rule.ofKind .choiceAttributes).apply radius (receiver ++ ".choices[" ++ index ++ "].text") =
      receiver ++ ".choices[" ++ index ++ "].message.content" := by
  have hne : receiver ≠ [] := by
    rintro rfl
    exact absurd hrun.start (by simp)
  have hchars : ∀ c ∈ receiver ++ ".choices", isNameChar c = true := by
    intro c hc
    rcases List.mem_append.1 hc with hc | hc
    · exact hrun.chars c hc
    · exact List.all_eq_true.1 (by decide : (".choices" : Text).all isNameChar = true) c hc
  have hstart : (receiver ++ ".choices").head?.any isNameStart = true := by
    rw [List.head?_append_of_ne_nil _ hne]
    exact hrun.start
  have hh : attributesHit? ⟨[], receiver ++ ".choices[" ++ index ++ "].text"⟩ = some _ :=
    attributesHit?_eq_some_iff.2 ⟨receiver, index, [], hne, hindex, rfl,
      dottedName?_eq_some_iff.2 ⟨rfl, by simp, hstart, hchars, rfl⟩, rfl⟩
  exact @Rule.apply_of_hit (Rule.ofKind .choiceAttributes) radius _ _ hh (by simp)

/-- An access by subscripts becomes the path to the content of the message. -/
theorem apply_subscripts (hrun : NameRun receiver [] receiver []) {q p : Char}
    (hq : isQuote q = true) (hp : isQuote p = true) (hindex : IsIndex index) :
    (Rule.ofKind .choiceSubscripts).apply radius (receiver ++ subscriptsText q index p) =
      receiver ++ ".choices[" ++ index ++ "].message.content" := by
  have hd : dottedName? ⟨[], receiver ++ subscriptsText q index p⟩ =
      some (receiver, subscriptsText q index p ++ []) :=
    dottedName?_eq_some_iff.2 ⟨rfl, by simp, hrun.start, hrun.chars,
      by simp [subscriptsText]; decide⟩
  have hh : subscriptsHit? ⟨[], receiver ++ subscriptsText q index p⟩ = some _ :=
    subscriptsHit?_eq_some_iff.2 ⟨receiver, q, index, p, [], hq, hp, hindex, hd, rfl⟩
  exact @Rule.apply_of_hit (Rule.ofKind .choiceSubscripts) radius _ _ hh rfl

end ChoiceAccess

/-- The edits of the rules for accesses. There is one for each longest run of name characters that
begins as names do, ends in `choices` behind a receiver, and has an index and the attribute `text`
behind it, no word character following; and one for each such run with the two quoted keys and an
index between them behind it. Both write the same path behind the receiver, so that an access
comes out the same in whichever way it was written. -/
theorem Rule.access_edits_iff (radius : Option Nat) (text : Text) :
    (∀ edit, edit ∈ (Rule.ofKind .choiceAttributes).edits radius text ↔
      ∃ front run index behind receiver : Text,
        NameRun text front run ("[" ++ index ++ "].text" ++ behind) ∧
        run = receiver ++ ".choices" ∧ receiver ≠ [] ∧ IsIndex index ∧
        behind.head?.any isWord = false ∧
        edit = Edit.behind "access-path.dot" front (run ++ "[" ++ index ++ "].text")
          (receiver ++ ".choices[" ++ index ++ "].message.content")) ∧
    (∀ edit, edit ∈ (Rule.ofKind .choiceSubscripts).edits radius text ↔
      ∃ front receiver q index p behind,
        NameRun text front receiver (subscriptsText q index p ++ behind) ∧
        isQuote q = true ∧ isQuote p = true ∧ IsIndex index ∧
        edit = Edit.behind "access-path.subscript" front (receiver ++ subscriptsText q index p)
          (receiver ++ ".choices[" ++ index ++ "].message.content")) ∧
    (∀ kind ∈ [Kind.choiceAttributes, Kind.choiceSubscripts],
      ((Rule.ofKind kind).edits radius text).Pairwise fun first second =>
        first.stop ≤ second.start) ∧
    ∀ (receiver index : Text) (q p : Char), NameRun receiver [] receiver [] → IsIndex index →
      isQuote q = true → isQuote p = true →
      (Rule.ofKind .choiceAttributes).apply radius
        (receiver ++ ".choices[" ++ index ++ "].text") =
        receiver ++ ".choices[" ++ index ++ "].message.content" ∧
      (Rule.ofKind .choiceSubscripts).apply radius (receiver ++ subscriptsText q index p) =
        receiver ++ ".choices[" ++ index ++ "].message.content" := by
  have hattributes : Separate ((Rule.ofKind .choiceAttributes).kind.hit? radius) :=
    ChoiceAccess.separate_attributesHit?
  have hsubscripts : Separate ((Rule.ofKind .choiceSubscripts).kind.hit? radius) :=
    ChoiceAccess.separate_subscriptsHit?
  refine ⟨fun edit => ?_, fun edit => ?_,
    fun kind _ => ((Rule.ofKind kind).groupFits_edits radius text).ascending, ?_⟩
  · rw [mem_edits_iff hattributes]
    constructor
    · rintro ⟨front, after, hit, hsplit, hh, -, rfl⟩
      obtain ⟨receiver, index, behind, hne, hindex, hbehind, hd, rfl⟩ :=
        ChoiceAccess.attributesHit?_eq_some_iff.1 hh
      exact ⟨front, _, index, behind, receiver, nameRun_iff.2 ⟨after, hsplit, hd⟩, rfl,
        hne, hindex, hbehind, rfl⟩
    · rintro ⟨front, run, index, behind, receiver, hrun, rfl, hne, hindex, hbehind, rfl⟩
      obtain ⟨after, hsplit, hd⟩ := nameRun_iff.1 hrun
      exact ⟨front, after, _, hsplit, ChoiceAccess.attributesHit?_eq_some_iff.2
        ⟨receiver, index, behind, hne, hindex, hbehind, hd, rfl⟩, by simp, rfl⟩
  · rw [mem_edits_iff hsubscripts]
    constructor
    · rintro ⟨front, after, hit, hsplit, hh, -, rfl⟩
      obtain ⟨receiver, q, index, p, behind, hq, hp, hindex, hd, rfl⟩ :=
        ChoiceAccess.subscriptsHit?_eq_some_iff.1 hh
      exact ⟨front, receiver, q, index, p, behind, nameRun_iff.2 ⟨after, hsplit, hd⟩, hq,
        hp, hindex, rfl⟩
    · rintro ⟨front, receiver, q, index, p, behind, hrun, hq, hp, hindex, rfl⟩
      obtain ⟨after, hsplit, hd⟩ := nameRun_iff.1 hrun
      exact ⟨front, after, _, hsplit, ChoiceAccess.subscriptsHit?_eq_some_iff.2
        ⟨receiver, q, index, p, behind, hq, hp, hindex, hd, rfl⟩, by simp [subscriptsText], rfl⟩
  · intro receiver index q p hrun hindex hq hp
    exact ⟨ChoiceAccess.apply_attributes hrun hindex,
      ChoiceAccess.apply_subscripts hrun hq hp hindex⟩

/-- An access inside the index of another one is rewritten, and the outer one is no access. -/
example : (Rule.ofKind .choiceAttributes).edits none "a.choices[b.choices[ 0 ].text].text" =
    [Edit.behind "access-path.dot" "a.choices[" "b.choices[ 0 ].text"
      "b.choices[ 0 ].message.content"] := by
  decide +kernel

end SdkUpgrade

import Mathlib.Data.List.Forall2
import SdkUpgrade.Proofs.Catalogs
import SdkUpgrade.Proofs.Undisturbed

/-!
# What the radius of the context decides

Only the rules for model names consult the context, and all they ask of it is which successor to
write. Two runs that differ in the radius therefore leave different texts, and yet make the same
edits one after the other: `Engine.agrees_run`. The rules and the old wordings are the same, and
so are the new ones, apart from the successor that stands between the quotes.

The rules that come after a rule for model names read texts of different lengths in the two runs.
What they find is compared with what they would have found in the text that the first of these
rules read, `Rule.shown_edits_finalText`.
-/

namespace SdkUpgrade

open Text Source

/-! ## Edits that agree -/

/-- Two edits agree, apart from the places of their spans and from the successor that a rule for
model names puts between the quotes. -/
def Edit.Agrees (edit other : Edit) : Prop :=
  edit.ruleId = other.ruleId ∧ edit.before = other.before ∧
    if edit.ruleId ∈ [Kind.modelName.id, Kind.shortModelName.id] then
      ∃ (mention : ModelMention) (intent intent' : Intent), isQuote mention.quote = true ∧
        edit.before = mention.text ∧
        edit.after = (mention.naming (successorOf mention.model intent)).text ∧
        other.after = (mention.naming (successorOf mention.model intent')).text
    else edit.after = other.after

namespace Kind

/-- The kinds that choose a successor by the context. -/
def choosesModel : Kind → Bool
  | modelName | shortModelName => true
  | _ => false

/-- What an edit of a kind shows whatever the radius is. -/
def shown (kind : Kind) (edit : Edit) : Text × Text × Text :=
  (edit.ruleId, edit.before, if kind.choosesModel then [] else edit.after)

/-- A kind that chooses no model does not consult the context. -/
theorem hit?_radius {kind : Kind} (h : kind.choosesModel = false) (radius radius' : Option Nat) :
    kind.hit? radius = kind.hit? radius' := by
  cases kind with
  | modelName => exact absurd h (by decide)
  | shortModelName => exact absurd h (by decide)
  | _ => rfl

/-- The identifiers of the rules for model names tell their kinds. -/
theorem choosesModel_iff (kind : Kind) :
    kind.choosesModel = true ↔ kind.id ∈ [Kind.modelName.id, Kind.shortModelName.id] := by
  cases kind <;> decide

/-- A successor is never the name of a retired model. -/
theorem newWord_ne_word : ∀ kind ∈ values, kind.choosesModel = true → ∀ old ∈ kind.oldWords,
    ∀ new ∈ kind.newWords, new ≠ old := by
  decide

/-- What a kind that chooses a model changes is a mention of a retired model. -/
theorem exists_mention {kind : Kind} (hkind : kind.choosesModel = true) {radius : Option Nat}
    {c : Cursor} {found : Hit} (h : kind.hit? radius c = some found) :
    ∃ mention : ModelMention, isQuote mention.quote = true ∧
      (mention.model ∈ RetiredModel.longNames ∨ mention.model ∈ RetiredModel.shortNames) ∧
      found.matched = mention.text ∧ found.replacement =
        (mention.naming (successorOf mention.model (mention.intent radius c))).text := by
  cases kind with
  | modelName =>
      obtain ⟨mention, hm, rfl⟩ := Option.map_eq_some_iff.1 h
      obtain ⟨-, hquote, hmodel⟩ := ModelMention.of_longAt?_eq_some hm
      exact ⟨mention, hquote, .inl hmodel, rfl, rfl⟩
  | shortModelName =>
      obtain ⟨mention, hm, rfl⟩ := Option.map_eq_some_iff.1 h
      obtain ⟨hmodel, hquote, -⟩ := ModelMention.of_shortAt?_eq_some hm
      exact ⟨mention, hquote, .inr hmodel, rfl, rfl⟩
  | _ => exact absurd hkind (by decide)

end Kind

/-- A mention of a name without quotes in it can be told from its text. -/
theorem ModelMention.text_inj {mention other : ModelMention}
    (hquote : isQuote mention.quote = true) (hquote' : isQuote other.quote = true)
    (hmodel : ∀ c ∈ mention.model, isQuote c = false)
    (hmodel' : ∀ c ∈ other.model, isQuote c = false) (h : mention.text = other.text) :
    mention = other := by
  obtain ⟨lead, q, model⟩ := mention
  obtain ⟨lead', q', model'⟩ := other
  -- Read from the right, the name ends at the first quote.
  have hreverse := congrArg List.reverse h
  simp only [text, List.reverse_append, List.reverse_cons, List.reverse_nil, List.nil_append,
    List.cons_append] at hreverse
  obtain ⟨rfl, hrest⟩ := List.cons.inj hreverse
  have hplain : ∀ name : Text, (∀ c ∈ name, isQuote c = false) → ∀ c ∈ name.reverse,
      (!isQuote c) = true := by
    intro name hname c hc
    rw [hname c (List.mem_reverse.1 hc)]
    rfl
  have hstop : ∀ rest : Text, (q :: rest).head?.any (fun c => !isQuote c) = false := by
    intro rest
    show (!isQuote q) = false
    rw [show isQuote q = true from hquote]
    rfl
  have hname := congrArg (List.takeWhile fun c => !isQuote c) hrest
  rw [takeWhile_stretch (hplain model hmodel) (hstop _),
    takeWhile_stretch (hplain model' hmodel') (hstop _)] at hname
  obtain rfl : model = model' := List.reverse_inj.1 hname
  have hlead := (List.cons.inj (List.append_cancel_left hrest)).2
  obtain rfl : lead = lead' := List.reverse_inj.1 hlead
  rfl

/-! ## One rule on two texts -/

namespace Kind

variable {kind : Kind} {words : List Text}

/-- Two spellings of the word of a site show the same if they are equal, or if the kind chooses
models and both are new. -/
theorem shown_site (ruleId : Text) (site : Site) {new new' : Text} {rest rest' : List Piece}
    (hnew : new = new' ∨ kind.choosesModel = true ∧ new ≠ site.word ∧ new' ≠ site.word)
    (hrest : ∀ offset offset', (editsFrom ruleId offset rest).map kind.shown =
      (editsFrom ruleId offset' rest').map kind.shown) (offset offset' : Nat) :
    (editsFrom ruleId offset (.hit (site.hit new) :: rest)).map kind.shown =
      (editsFrom ruleId offset' (.hit (site.hit new') :: rest')).map kind.shown := by
  have hchange : ∀ new : Text, (site.hit new).replacement = (site.hit new).matched ↔
      new = site.word := by
    intro new
    simp [Site.hit, Site.text]
  rcases hnew with rfl | ⟨hchooses, hne, hne'⟩
  · by_cases hsame : (site.hit new).replacement = (site.hit new).matched
    · simpa [editsFrom, hsame] using hrest _ _
    · simpa [editsFrom, hsame, shown] using hrest _ _
  · rw [editsFrom, editsFrom, if_neg fun heq => hne ((hchange new).1 heq),
      if_neg fun heq => hne' ((hchange new').1 heq)]
    simpa [shown, hchooses, Site.hit] using hrest _ _

/-- At corresponding places of the two texts a kind writes the same word, or it chooses a model in
both. -/
theorem newWord_corresponds (hkind : kind ∈ values) (hw : ∀ word ∈ words, IsPlain word)
    {front lead back : List Piece} (h : Isolated words [] (front ++ (lead ++ back)))
    (hlead : sourceOf lead = resultOf lead) {word : Text} (hword : word ∈ kind.oldWords)
    (radius radius' : Option Nat) (after after' tail : Text) :
    let new := kind.newWord radius ⟨(sourceOf front).reverse, after⟩ ⟨sourceOf lead, word, tail⟩
    let new' :=
      kind.newWord radius' ⟨(resultOf front).reverse, after'⟩ ⟨sourceOf lead, word, tail⟩
    new = new' ∨ kind.choosesModel = true ∧ new ≠ word ∧ new' ≠ word := by
  intro new new'
  cases hchooses : kind.choosesModel with
  | true =>
      have hchosen := newWord_ne_word kind hkind hchooses word hword
      exact .inr ⟨rfl, hchosen _ (newWord_mem hkind _ _ _), hchosen _ (newWord_mem hkind _ _ _)⟩
  | false =>
      have hfixed : ∀ kind ∈ values, kind.choosesModel = false →
          kind = tokenLimit ∨ kind = engineKey := by decide
      have hsame :=
        newWord_respelled (hfixed kind hkind hchooses) hw radius radius' h after after' word tail
      rw [← hlead] at hsame
      exact .inl hsame

/-- A kind shows the same edits on two texts that differ in the spelling of words which it ignores
and which are no keys of it. -/
theorem shown_respelled (hkind : kind ∈ values) (hw : ∀ word ∈ words, IsPlain word)
    (hignores : kind.Ignores words) (hkeys : ∀ word ∈ words, word ∉ kind.keys)
    {respelled : List Piece} (h : Isolated words [] respelled) (radius radius' : Option Nat)
    (ruleId : Text) :
    (editsFrom ruleId 0 (scan (kind.hit? radius) (sourceOf respelled))).map kind.shown =
      (editsFrom ruleId 0 (scan (kind.hit? radius') (resultOf respelled))).map kind.shown := by
  have hall : ∀ front back, respelled = front ++ back → ∀ offset offset',
      (editsFrom ruleId offset (pieces (kind.hit? radius) 0 (sourceOf front).reverse
        (sourceOf back))).map kind.shown =
      (editsFrom ruleId offset' (pieces (kind.hit? radius') 0 (resultOf front).reverse
        (resultOf back))).map kind.shown := by
    refine respelled_induction hkind hw hignores h ?_ ?_ ?_
    · intro offset offset'
      rfl
    · intro front piece back _ hold hnew ih offset offset'
      have hsource : sourceOf (piece :: back) = piece.source ++ sourceOf back := rfl
      have hresult : resultOf (piece :: back) = piece.result ++ resultOf back := rfl
      rw [hsource, hresult, pieces_passes hkind radius hold, pieces_passes hkind radius' hnew,
        editsFrom_map_kept, editsFrom_map_kept]
      simpa [sourceOf, resultOf] using ih (offset + piece.source.length)
        (offset' + piece.result.length)
    · intro front lead word tail rest hpieces hold hnew hsame ih
      have hlead := hsame hkeys
      rw [← hlead] at hnew
      have htext : ∀ text : Text, sourceOf lead ++ (word ++ (tail ++ text)) =
          (Site.text ⟨sourceOf lead, word, tail⟩) ++ text := by
        intro text
        simp [Site.text]
      rw [htext] at hold hnew
      have hword : word ∈ kind.oldWords := by
        obtain ⟨_, _, _, _, _, reading⟩ := exists_reading hkind hold
        exact reading.word_mem
      have hrest := ih
      simp only [sourceOf_append, resultOf_append, sourceOf_map_kept, resultOf_map_kept, ← hlead,
        List.reverse_append, List.append_assoc] at hrest
      have hsource : sourceOf (lead ++ (word.map .kept ++ (tail.map .kept ++ rest))) =
          Site.text ⟨sourceOf lead, word, tail⟩ ++ sourceOf rest := by simp [Site.text]
      have hresult : resultOf (lead ++ (word.map .kept ++ (tail.map .kept ++ rest))) =
          Site.text ⟨sourceOf lead, word, tail⟩ ++ resultOf rest := by simp [Site.text, hlead]
      rw [hsource, hresult, pieces_site hkind radius hold, pieces_site hkind radius' hnew]
      refine shown_site ruleId ⟨sourceOf lead, word, tail⟩ ?_ ?_
      · exact newWord_corresponds hkind hw (hpieces ▸ h) hlead hword radius radius' _ _ tail
      · simpa [Site.text] using hrest
  exact hall [] respelled rfl 0 0

/-- A kind may run after another one: it is not the same kind, and no word of the earlier one
is a key that it reads. -/
def RunsAfter (kind earlier : Kind) : Prop :=
  kind ≠ earlier ∧ ∀ word ∈ earlier.words, word ∉ kind.keys

instance (kind earlier : Kind) : Decidable (kind.RunsAfter earlier) :=
  inferInstanceAs (Decidable (_ ∧ _))

/-- In the usual order every kind of one word may run after those before it. -/
theorem pairwise_runsAfter : values.Pairwise fun earlier kind => kind.RunsAfter earlier := by
  decide

end Kind

/-- A rule shows the same edits on a text and on what some rules before it leave of that text. -/
theorem Rule.shown_edits_finalText {kind : Kind} (hkind : kind ∈ Kind.values)
    (radius radius' : Option Nat) {earlier : List Kind}
    (hvalues : ∀ other ∈ earlier, other ∈ Kind.values)
    (hafter : ∀ other ∈ earlier, kind.RunsAfter other) (text : Text) :
    ((ofKind kind).edits radius text).map kind.shown =
      ((ofKind kind).edits radius' (finalText radius' (earlier.map ofKind) text)).map
        kind.shown := by
  induction earlier generalizing radius text with
  | nil =>
      -- Nothing was respelled, but the radius may be another one.
      have hnone : ∀ word ∈ ([] : List Text), IsPlain word :=
        fun _ hmem => absurd hmem List.not_mem_nil
      have hsame := Kind.shown_respelled hkind hnone ⟨by simp, by simp⟩ (by simp)
        (isolated_kept [] [] text) radius radius' kind.id
      rw [sourceOf_map_kept, resultOf_map_kept] at hsame
      exact hsame
  | cons other earlier ih =>
      have hother := hvalues other List.mem_cons_self
      obtain ⟨hne, hkeys⟩ := hafter other List.mem_cons_self
      have hstep := Kind.shown_respelled hkind (Kind.isPlain_words other hother)
        (Kind.ignores_words kind hkind other hother hne) hkeys
        (Kind.isolated_respellings hother radius' [] text) radius radius' kind.id
      rw [Kind.sourceOf_respellings hother, Kind.resultOf_respellings hother] at hstep
      refine Eq.trans hstep ?_
      exact ih radius' (fun kind hmem => hvalues kind (List.mem_cons_of_mem _ hmem))
        (fun kind hmem => hafter kind (List.mem_cons_of_mem _ hmem)) _

/-- Edits of a rule that show the same agree. -/
theorem Rule.agrees_of_shown {kind : Kind} {radius radius' : Option Nat} {text text' : Text}
    {edit edit' : Edit} (h : edit ∈ (ofKind kind).edits radius text)
    (h' : edit' ∈ (ofKind kind).edits radius' text')
    (hshown : kind.shown edit = kind.shown edit') :
    edit.Agrees edit' := by
  have hid : edit.ruleId = kind.id := ruleId_of_mem_edits h
  obtain ⟨-, hrest⟩ := Prod.mk.inj hshown
  obtain ⟨hbefore, hlast⟩ := Prod.mk.inj hrest
  refine ⟨(Prod.mk.inj hshown).1, hbefore, ?_⟩
  rw [hid]
  cases hchooses : kind.choosesModel with
  | false =>
      rw [if_neg fun hmem => by simpa [hchooses] using kind.choosesModel_iff.2 hmem]
      simpa [hchooses] using hlast
  | true =>
      rw [if_pos (kind.choosesModel_iff.1 hchooses)]
      obtain ⟨_, _, found, -, hfound, rfl⟩ :=
        exists_of_mem_editsFrom (kind.recognises_hit? radius) [] text h
      obtain ⟨_, _, found', -, hfound', rfl⟩ :=
        exists_of_mem_editsFrom (kind.recognises_hit? radius') [] text' h'
      obtain ⟨mention, hquote, hmodel, hold, hnew⟩ := Kind.exists_mention hchooses hfound
      obtain ⟨mention', hquote', hmodel', hold', hnew'⟩ := Kind.exists_mention hchooses hfound'
      obtain rfl : mention = mention' := ModelMention.text_inj hquote hquote'
        (RetiredModel.isQuote_of_mem hmodel) (RetiredModel.isQuote_of_mem hmodel')
        (hold.symm.trans (hbefore.trans hold'))
      exact ⟨mention, _, _, hquote, hold, hnew, hnew'⟩

/-! ## Two runs -/

/-- Lists whose elements show the same in order are related in order. -/
theorem forall₂_of_map_eq {α β : Type} {f : α → β} {R : α → α → Prop} {first second : List α}
    (hR : ∀ a ∈ first, ∀ b ∈ second, f a = f b → R a b)
    (h : first.map f = second.map f) : List.Forall₂ R first second := by
  induction first generalizing second with
  | nil =>
      obtain rfl : second = [] := List.map_eq_nil_iff.1 h.symm
      exact .nil
  | cons a first ih =>
      cases second with
      | nil => exact absurd h (by simp)
      | cons b second =>
          obtain ⟨hab, hrest⟩ := List.cons.inj h
          refine .cons (hR a List.mem_cons_self b List.mem_cons_self hab) (ih ?_ hrest)
          exact fun a ha b hb => hR a (List.mem_cons_of_mem _ ha) b (List.mem_cons_of_mem _ hb)

/-- The passes of the rules that change one word make agreeing edits, whatever the radius. -/
theorem agrees_passes_values (radius radius' : Option Nat) (text : Text)
    {earlier kinds : List Kind} (h : (earlier ++ kinds).Sublist Kind.values) :
    List.Forall₂ Edit.Agrees
      ((passes radius (kinds.map Rule.ofKind)
        (finalText radius (earlier.map Rule.ofKind) text)).flatMap Pass.edits)
      ((passes radius' (kinds.map Rule.ofKind)
        (finalText radius' (earlier.map Rule.ofKind) text)).flatMap Pass.edits) := by
  induction kinds generalizing earlier with
  | nil => exact .nil
  | cons kind kinds ih =>
      have hvalues : ∀ other ∈ earlier ++ kind :: kinds, other ∈ Kind.values :=
        fun _ hmem => h.subset hmem
      have hafter : ∀ other ∈ earlier, kind.RunsAfter other :=
        fun other hmem => (List.pairwise_append.1 (Kind.pairwise_runsAfter.sublist h)).2.2
          other hmem kind List.mem_cons_self
      have hkind : kind ∈ Kind.values := hvalues kind (by simp)
      have hearlier : ∀ other ∈ earlier, other ∈ Kind.values :=
        fun other hmem => hvalues other (List.mem_append_left _ hmem)
      have hshown : ∀ radius, ((Rule.ofKind kind).edits none text).map kind.shown =
          ((Rule.ofKind kind).edits radius (finalText radius (earlier.map Rule.ofKind) text)).map
            kind.shown :=
        fun radius => Rule.shown_edits_finalText hkind none radius hearlier hafter text
      rw [List.map_cons, edits_passes_cons, edits_passes_cons]
      refine List.rel_append ?_ ?_
      · exact forall₂_of_map_eq (fun _ hedit _ hedit' => Rule.agrees_of_shown hedit hedit')
          ((hshown radius).symm.trans (hshown radius'))
      · have hrest := @ih (earlier ++ [kind]) (by simpa using h)
        simpa [finalText] using hrest

/-- Passes of rules that choose no model do not depend on the radius. -/
theorem passes_radius {kinds : List Kind} (h : ∀ kind ∈ kinds, kind.choosesModel = false)
    (radius radius' : Option Nat) (text : Text) :
    passes radius (kinds.map Rule.ofKind) text = passes radius' (kinds.map Rule.ofKind) text ∧
      finalText radius (kinds.map Rule.ofKind) text =
        finalText radius' (kinds.map Rule.ofKind) text := by
  induction kinds generalizing text with
  | nil => exact ⟨rfl, rfl⟩
  | cons kind kinds ih =>
      have hpieces :
          (Rule.ofKind kind).pieces radius text = (Rule.ofKind kind).pieces radius' text :=
        congrArg (scan · text) (Kind.hit?_radius (h kind List.mem_cons_self) radius radius')
      have happly :
          (Rule.ofKind kind).apply radius text = (Rule.ofKind kind).apply radius' text := by
        rw [Rule.apply, Rule.apply, hpieces]
      have hedits :
          (Rule.ofKind kind).edits radius text = (Rule.ofKind kind).edits radius' text := by
        rw [Rule.edits, Rule.edits, hpieces]
      obtain ⟨hpasses, hfinal⟩ := ih (fun other hmem => h other (List.mem_cons_of_mem _ hmem))
        ((Rule.ofKind kind).apply radius' text)
      constructor
      · simp only [List.map_cons, passes, happly, hedits, hpasses]
      · show finalText radius _ ((Rule.ofKind kind).apply radius text) = finalText radius' _ _
        rw [happly]
        exact hfinal

/-- The edits of passes that choose no model agree with themselves. -/
theorem agrees_passes_self {kinds : List Kind} (h : ∀ kind ∈ kinds, kind.choosesModel = false)
    (radius : Option Nat) (text : Text) :
    List.Forall₂ Edit.Agrees ((passes radius (kinds.map Rule.ofKind) text).flatMap Pass.edits)
      ((passes radius (kinds.map Rule.ofKind) text).flatMap Pass.edits) := by
  rw [List.forall₂_same]
  intro edit hedit
  have hid := ruleId_mem_of_mem_passes hedit
  rw [List.map_map] at hid
  obtain ⟨kind, hkind, hsame⟩ := List.mem_map.1 hid
  have hnot : edit.ruleId ∉ [Kind.modelName.id, Kind.shortModelName.id] := by
    intro hmem
    rw [← hsame] at hmem
    have hchooses := kind.choosesModel_iff.2 hmem
    rw [h kind hkind] at hchooses
    exact absurd hchooses (by simp)
  exact ⟨rfl, rfl, by rw [if_neg hnot]⟩

/-- Two runs of an engine with a reduced catalog that differ in the radius make the same edits in
the same order, apart from the successor that a rule for model names puts between the quotes. -/
theorem Engine.agrees_run {ids : List Text} {catalog : Catalog}
    (h : Catalog.standard.without ids = .ok catalog) (collapse : Bool)
    (radius radius' : Option Nat)
    (text : Text) :
    List.Forall₂ Edit.Agrees (Engine.run ⟨catalog, radius, collapse⟩ text).edits
      (Engine.run ⟨catalog, radius', collapse⟩ text).edits := by
  let kept : Kind → Bool := fun kind => decide (kind.id ∉ ids)
  have hrules : catalog.rules =
      (Kind.shapes.filter kept).map Rule.ofKind ++ (Kind.values.filter kept).map Rule.ofKind := by
    rw [(Catalog.without_eq_ok_iff.1 h).2, ← List.map_append, ← List.filter_append, ← Kind.all_eq]
    exact List.filter_map
  have hshapes : ∀ kind ∈ Kind.shapes.filter kept, kind.choosesModel = false := by
    have hall : ∀ kind ∈ Kind.shapes, kind.choosesModel = false := by decide
    exact fun kind hmem => hall kind (List.mem_of_mem_filter hmem)
  have hprepare : Engine.prepare ⟨catalog, radius, collapse⟩ text =
      Engine.prepare ⟨catalog, radius', collapse⟩ text := rfl
  show List.Forall₂ _ ((SdkUpgrade.passes radius catalog.rules _).flatMap Pass.edits)
    ((SdkUpgrade.passes radius' catalog.rules _).flatMap Pass.edits)
  rw [hrules, hprepare, edits_passes_append, edits_passes_append]
  -- Up to the rules for model names, the two runs are the same run.
  obtain ⟨hpasses, hfinal⟩ :=
    passes_radius hshapes radius radius' (Engine.prepare ⟨catalog, radius', collapse⟩ text)
  rw [hpasses, hfinal]
  refine List.rel_append (agrees_passes_self hshapes radius' _) ?_
  exact @agrees_passes_values radius radius' _ [] _ List.filter_sublist

/-- The keyword at the end of a text is out of reach for a small radius, so the two runs choose
different models; the short name and the engine key behind them are found in both. -/
theorem Engine.agrees_run_keyword : ∃ catalog,
    Catalog.standard.without ["prompt.messages"] = .ok catalog ∧
      (Engine.run ⟨catalog, some 0, false⟩ "f('text-davinci-003', engine='ada') # math").edits ≠
        (Engine.run ⟨catalog, none, false⟩ "f('text-davinci-003', engine='ada') # math").edits ∧
      List.Forall₂ Edit.Agrees
        (Engine.run ⟨catalog, some 0, false⟩ "f('text-davinci-003', engine='ada') # math").edits
        (Engine.run ⟨catalog, none, false⟩
          "f('text-davinci-003', engine='ada') # math").edits := by
  let reduced : Catalog := ⟨(Kind.all.filter (· ≠ .promptMessage)).map Rule.ofKind, by decide⟩
  have hreduced : Catalog.standard.without ["prompt.messages"] = .ok reduced :=
    Catalog.without_eq_ok_iff.2 ⟨by decide, by decide⟩
  exact ⟨reduced, hreduced, by decide +kernel, Engine.agrees_run hreduced false (some 0) none _⟩

end SdkUpgrade

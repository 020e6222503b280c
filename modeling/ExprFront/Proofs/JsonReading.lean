import ExprFront.Proofs.JsonLexing
import ExprFront.Proofs.NumberTexts

/-!
# JSON texts read back

The text of a JSON value has the tokens of the value, whatever the style, and these are put together
to the value again.
-/

namespace ExprFront
set_option autoImplicit false

/-! ## Tokens of a value -/

namespace Json
open JsonTree

mutual

/-- The tokens of a value, which do not depend on the style. -/
def tokens : Json → List JsonToken
  | .null => [.literal ['n', 'u', 'l', 'l']]
  | .number x => [.literal x.jsonText.toList]
  | .text t => [.text t.joined]
  | .array [] => [.openArray, .closeArray]
  | .array (item :: items) =>
    [.openArray] ++ (tokens item ++ (restTokens items ++ [.closeArray]))
  | .object [] => [.openObject, .closeObject]
  | .object (member :: members) =>
    [.openObject] ++ (memberTokens member ++ (membersTokens members ++ [.closeObject]))

def restTokens : List Json → List JsonToken
  | [] => []
  | item :: items => [.comma] ++ (tokens item ++ restTokens items)

def membersTokens : List (String × Json) → List JsonToken
  | [] => []
  | member :: members => [.comma] ++ (memberTokens member ++ membersTokens members)

def memberTokens : String × Json → List JsonToken
  | (key, value) => [.text (CodeText.ofString key)] ++ ([.colon] ++ tokens value)

end

/-! ## Rendering -/

theorem isSpace_of_mem_lead (s : Style) (level : Nat) :
    ∀ c ∈ (s.lead level).toList, isSpace c = true := by
  cases s with
  | lines width =>
    rw [Style.lead, String.toList_ofList, List.forall_mem_cons]
    refine ⟨by decide, ?_⟩
    intro c hc
    rw [List.eq_of_mem_replicate hc]
    decide
  | line | compact => simp [Style.lead]

/-- A text is appended that has the tokens in the given sense. -/
def Appends (S : List Char → List JsonToken → Prop) (before after : String)
    (ts : List JsonToken) : Prop :=
  ∃ cs, after.toList = before.toList ++ cs ∧ S cs ts

section
variable {S T U : List Char → List JsonToken → Prop} {a b c d e : String} {ts us : List JsonToken}

theorem Appends.imp (h : Appends S a b ts) (hST : ∀ {cs}, S cs ts → T cs ts) :
    Appends T a b ts := by
  obtain ⟨cs, hcs, hs⟩ := h
  exact ⟨cs, hcs, hST hs⟩

theorem Appends.trans (h : Appends S a b ts) (h' : Appends T b c us)
    (hU : ∀ {cs ds}, S cs ts → T ds us → U (cs ++ ds) (ts ++ us)) : Appends U a c (ts ++ us) := by
  obtain ⟨cs, hcs, hs⟩ := h
  obtain ⟨ds, hds, hs'⟩ := h'
  exact ⟨cs ++ ds, by rw [hds, hcs, List.append_assoc], hU hs hs'⟩

/-- What brackets hold is a first part and a rest that may follow it. -/
theorem Appends.enclosed {t u : JsonToken} (hopen : Appends SplitsApart a b [t])
    (hfirst : Appends Splits b c ts) (hrest : Appends SplitsBehind c d us)
    (hclose : Appends SplitsApart d e [u]) :
    Appends Splits a e ([t] ++ (ts ++ (us ++ [u]))) := by
  have hend : Appends SplitsBehind c e (us ++ [u]) :=
    hrest.trans (hclose.imp SplitsApart.behind) SplitsBehind.append
  have hinner : Appends Splits b e (ts ++ (us ++ [u])) := hfirst.trans hend Splits.append
  exact (hopen.trans hinner SplitsApart.append).imp SplitsBehind.splits

end

section
variable (s : Style) (level : Nat) (before : String)

theorem appends_open {c : Char} {t : JsonToken} (hc : marks.lookup c = some t) :
    Appends SplitsApart before (before ++ String.singleton c ++ s.lead level) [t] := by
  refine ⟨[] ++ c :: (s.lead level).toList, ?_,
    splitsApart_mark hc (by simp) (isSpace_of_mem_lead s level)⟩
  simp only [String.toList_append, String.toList_singleton, List.append_assoc, List.nil_append,
    List.singleton_append]

theorem appends_close {c : Char} {t : JsonToken} (hc : marks.lookup c = some t) :
    Appends SplitsApart before (before ++ s.lead level ++ String.singleton c) [t] := by
  refine ⟨(s.lead level).toList ++ [c], ?_,
    splitsApart_mark hc (isSpace_of_mem_lead s level) (by simp)⟩
  simp only [String.toList_append, String.toList_singleton, List.append_assoc]

theorem appends_comma : Appends SplitsApart before (before ++ s.comma level) [.comma] := by
  have hcomma : ∃ es : List Char, (s.comma level).toList = ',' :: es ∧
      ∀ c ∈ es, isSpace c = true := by
    cases s with
    | lines width =>
      exact ⟨_, by rw [Style.comma, String.toList_append]; rfl,
        isSpace_of_mem_lead (.lines width) level⟩
    | line => exact ⟨[' '], by simp [Style.comma], List.forall_mem_singleton.mpr rfl⟩
    | compact => exact ⟨[], by simp [Style.comma], by simp⟩
  obtain ⟨es, hes, hspace⟩ := hcomma
  exact ⟨[] ++ ',' :: es, by rw [String.toList_append, hes]; rfl,
    splitsApart_mark rfl (by simp) hspace⟩

theorem appends_colon : Appends SplitsApart before (before ++ s.colon) [.colon] := by
  have hcolon : ∃ es : List Char, s.colon.toList = ':' :: es ∧ ∀ c ∈ es, isSpace c = true := by
    cases s with
    | lines | line => exact ⟨[' '], by simp [Style.colon], List.forall_mem_singleton.mpr rfl⟩
    | compact => exact ⟨[], by simp [Style.colon], by simp⟩
  obtain ⟨es, hes, hspace⟩ := hcolon
  exact ⟨[] ++ ':' :: es, by rw [String.toList_append, hes]; rfl,
    splitsApart_mark rfl (by simp) hspace⟩

theorem appends_quoted (t : CodeText) :
    Appends Splits before (before ++ quoted t) [.text t.joined] :=
  ⟨_, String.toList_append, splits_quoted t⟩

theorem appends_literal {text : String} (hne : text.toList ≠ [])
    (h : ∀ c ∈ text.toList, isLiteralChar c = true) :
    Appends Splits before (before ++ text) [.literal text.toList] :=
  ⟨_, String.toList_append, splits_literal hne h⟩

end

section
variable (s : Style)

/-- Empty brackets are two tokens without a lead. -/
theorem appends_brackets {c d : Char} {t u : JsonToken} (hc : marks.lookup c = some t)
    (hd : marks.lookup d = some u) {text : String} (htext : text.toList = [c, d])
    (before : String) : Appends Splits before (before ++ text) [t, u] := by
  have hopen : SplitsApart ([] ++ [c]) [t] := splitsApart_mark hc (by simp) (by simp)
  have hclose : SplitsApart ([] ++ [d]) [u] := splitsApart_mark hd (by simp) (by simp)
  have happend := (hopen.append hclose.behind.splits).splits
  exact ⟨[c] ++ [d], by rw [String.toList_append, htext]; rfl, happend⟩

mutual

theorem renderOnto_appends : ∀ (j : Json) (level : Nat) (before : String),
    Appends Splits before (renderOnto s level before j) j.tokens
  | .null, level, before => by
    rw [renderOnto, tokens]
    exact appends_literal before (by decide) (List.all_eq_true.mp rfl)
  | .number x, level, before => by
    rw [renderOnto, tokens]
    exact appends_literal before x.isLiteralChar_jsonText.1 x.isLiteralChar_jsonText.2
  | .text t, level, before => by
    rw [renderOnto, tokens]
    exact appends_quoted before t
  | .array [], level, before => by
    rw [renderOnto, tokens]
    exact appends_brackets rfl rfl rfl before
  | .array (item :: items), level, before => by
    rw [renderOnto, tokens]
    have hopen := appends_open s (level + 1) before (c := '[') rfl
    have hitem := renderOnto_appends item (level + 1) (before ++ "[" ++ s.lead (level + 1))
    have hrest := renderRest_appends items (level + 1) (renderOnto s (level + 1)
      (before ++ "[" ++ s.lead (level + 1)) item)
    have hclose := appends_close s level (renderRest s (level + 1) (renderOnto s (level + 1)
      (before ++ "[" ++ s.lead (level + 1)) item) items) (c := ']') rfl
    exact hopen.enclosed hitem hrest hclose
  | .object [], level, before => by
    rw [renderOnto, tokens]
    exact appends_brackets rfl rfl rfl before
  | .object (member :: members), level, before => by
    rw [renderOnto, tokens]
    have hopen := appends_open s (level + 1) before (c := '\x7b') rfl
    have hmember := renderMember_appends member (level + 1) (before ++ "\x7b" ++ s.lead (level + 1))
    have hrest := renderMembers_appends members (level + 1) (renderMember s (level + 1)
      (before ++ "\x7b" ++ s.lead (level + 1)) member)
    have hclose := appends_close s level (renderMembers s (level + 1) (renderMember s (level + 1)
      (before ++ "\x7b" ++ s.lead (level + 1)) member) members) (c := '\x7d') rfl
    exact hopen.enclosed hmember hrest hclose

theorem renderRest_appends : ∀ (items : List Json) (level : Nat) (before : String),
    Appends SplitsBehind before (renderRest s level before items) (restTokens items)
  | [], level, before => ⟨[], (List.append_nil _).symm, splitsBehind_nil⟩
  | item :: items, level, before => by
    rw [renderRest, restTokens]
    have hcomma := appends_comma s level before
    have hitem := renderOnto_appends item level (before ++ s.comma level)
    have hrest := renderRest_appends items level (renderOnto s level (before ++ s.comma level) item)
    exact hcomma.trans (hitem.trans hrest Splits.append) SplitsApart.append

theorem renderMembers_appends : ∀ (members : List (String × Json)) (level : Nat) (before : String),
    Appends SplitsBehind before (renderMembers s level before members) (membersTokens members)
  | [], level, before => ⟨[], (List.append_nil _).symm, splitsBehind_nil⟩
  | member :: members, level, before => by
    rw [renderMembers, membersTokens]
    have hcomma := appends_comma s level before
    have hmember := renderMember_appends member level (before ++ s.comma level)
    have hrest := renderMembers_appends members level
      (renderMember s level (before ++ s.comma level) member)
    exact hcomma.trans (hmember.trans hrest Splits.append) SplitsApart.append

theorem renderMember_appends : ∀ (member : String × Json) (level : Nat) (before : String),
    Appends Splits before (renderMember s level before member) (memberTokens member)
  | (key, value), level, before => by
    rw [renderMember, memberTokens]
    have hkey := appends_quoted before key
    rw [CodeText.joined_ofString] at hkey
    have hcolon := appends_colon s (before ++ quoted key)
    have hvalue := renderOnto_appends value level (before ++ quoted key ++ s.colon)
    exact hkey.trans (hcolon.trans hvalue SplitsApart.append) Splits.append

end

end

/-! ## Putting tokens together -/

/-- The tokens lead from one state to the other. -/
def Takes (a : State) (ts : List JsonToken) (b : State) : Prop := ts.foldlM step a = some b

section
variable {a b c : State} {ts us : List JsonToken}

theorem Takes.nil (a : State) : Takes a [] a := rfl

theorem Takes.single {t : JsonToken} (h : step a t = some b) : Takes a [t] b := by
  rw [Takes, List.foldlM_cons, h]
  rfl

theorem Takes.append (h : Takes a ts b) (h' : Takes b us c) : Takes a (ts ++ us) c := by
  rw [Takes, List.foldlM_append, h]
  exact h'

end

mutual

/-- Behind its tokens a value is complete. -/
theorem takes_tokens : ∀ (j : Json) (frames : List Frame),
    Takes (.value frames) j.tokens (complete j.tree frames)
  | .null, frames => .single rfl
  | .number x, frames => by
    have hstep : step (.value frames) (.literal x.jsonText.toList) =
        some (complete (.number x.jsonText) frames) := by
      rw [step, x.literal?_jsonText]
      rfl
    rw [tokens, tree]
    exact .single hstep
  | .text t, frames => .single rfl
  | .array [], frames => .append (.single rfl) (.single rfl)
  | .array (item :: items), frames => by
    have hopen : Takes (.value frames) [.openArray] (.value (.array [] :: frames)) := .single rfl
    have hitem := takes_tokens item (.array [] :: frames)
    have hrest := takes_restTokens items [item.tree] frames
    have hclose : Takes (.afterItem ((trees items).reverse ++ [item.tree]) frames) [.closeArray]
        (complete (.array (item.tree :: trees items)) frames) := by
      refine .single ?_
      rw [step, List.reverse_append, List.reverse_reverse]
      rfl
    rw [tokens, tree, trees]
    exact hopen.append (hitem.append (hrest.append hclose))
  | .object [], frames => .append (.single rfl) (.single rfl)
  | .object (member :: members), frames => by
    have hopen : Takes (.value frames) [.openObject] (.key [] frames) := .single rfl
    have hmember := takes_memberTokens member [] frames
    have hrest := takes_membersTokens members [memberTree member] frames
    have hclose : Takes (.afterMember ((memberTrees members).reverse ++ [memberTree member]) frames)
        [.closeObject] (complete (.object (memberTree member :: memberTrees members)) frames) := by
      refine .single ?_
      rw [step, List.reverse_append, List.reverse_reverse]
      rfl
    rw [tokens, tree, memberTrees]
    exact hopen.append (hmember.append (hrest.append hclose))

theorem takes_restTokens : ∀ (items : List Json) (done : List JsonTree) (frames : List Frame),
    Takes (.afterItem done frames) (restTokens items)
      (.afterItem ((trees items).reverse ++ done) frames)
  | [], done, frames => .nil _
  | item :: items, done, frames => by
    have hcomma : Takes (.afterItem done frames) [.comma] (.value (.array done :: frames)) :=
      .single rfl
    have hitem := takes_tokens item (.array done :: frames)
    have hrest := takes_restTokens items (item.tree :: done) frames
    rw [restTokens, trees, List.reverse_cons, List.append_assoc]
    exact hcomma.append (hitem.append hrest)

theorem takes_membersTokens : ∀ (members : List (String × Json))
    (done : List (CodeText × JsonTree)) (frames : List Frame),
    Takes (.afterMember done frames) (membersTokens members)
      (.afterMember ((memberTrees members).reverse ++ done) frames)
  | [], done, frames => .nil _
  | member :: members, done, frames => by
    have hcomma : Takes (.afterMember done frames) [.comma] (.key done frames) := .single rfl
    have hmember := takes_memberTokens member done frames
    have hrest := takes_membersTokens members (memberTree member :: done) frames
    rw [membersTokens, memberTrees, List.reverse_cons, List.append_assoc]
    exact hcomma.append (hmember.append hrest)

theorem takes_memberTokens : ∀ (member : String × Json) (done : List (CodeText × JsonTree))
    (frames : List Frame),
    Takes (.key done frames) (memberTokens member)
      (.afterMember (memberTree member :: done) frames)
  | (key, value), done, frames => by
    have hkey : Takes (.key done frames) [.text (CodeText.ofString key)] (.colon done key frames) :=
      .single rfl
    have hcolon : Takes (.colon done key frames) [.colon] (.value (.object done key :: frames)) :=
      .single rfl
    have hvalue := takes_tokens value (.object done key :: frames)
    rw [memberTokens, memberTree]
    exact hkey.append (hcolon.append hvalue)

end

/-- The text of a value reads back as what it says, whatever the style. -/
theorem read_document (s : Style) (j : Json) : JsonTree.read (document s j) = some j.tree := by
  obtain ⟨cs, hcs, hsplits⟩ := renderOnto_appends s j 0 ""
  have htext : (document s j).toList = cs := hcs
  have htokens : JsonTree.tokens cs = some j.tokens := by
    have hrest := hsplits [] endsLiteral_nil
    rw [List.append_nil] at hrest
    rw [hrest, JsonTree.tokens, Option.map_some, List.append_nil]
  have hstate : j.tokens.foldlM step (.value []) = some (.finished j.tree) := takes_tokens j []
  rw [JsonTree.read, htext, htokens, Option.bind_eq_bind, Option.bind_some, hstate]
  rfl

end Json

end ExprFront

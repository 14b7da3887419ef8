/- source: src/gcc/gcc/c/c-parser.cc (c_czet_mt_nodes, c_czet_expand_seq,
     c_czet_build_expansion_tree, czet_cap_level_list, czet_cap_navigate)
   digest: The patterns `NAME $($x),*` and `NAME $( $( $x ),+ );+`: the rows and segments of a call are
     matched one by one and expanded in their order. -/

import CZet.Macro.Composition
import CZet.Macro.GroupSyntax
import CZet.Macro.ListElements
import Mathlib.Algebra.Order.Ring.Nat
import Mathlib.Data.List.TakeDrop

set_option autoImplicit false
set_option relaxedAutoImplicit false

namespace CZet

/-- The pattern `NAME $($x),*`. -/
def listPattern (name x : String) : List CToken :=
  nameToken name :: groupTokens [nameToken x] (some (punctToken .comma)) (punctToken .mult)

/-- The pattern `NAME $( $( $x ),+ );+`. -/
def gridPattern (name x : String) : List CToken :=
  nameToken name ::
    groupTokens (groupTokens [nameToken x] (some (punctToken .comma)) (punctToken .plus))
      (some (punctToken .semicolon)) (punctToken .plus)

/-- The text of a list of segments; only the empty list has no tokens. -/
def ListText (segs : List (List CToken)) (text : List CToken) : Prop :=
  (segs = [] ∧ text = []) ∨ Joined .comma segs text

/-- The text of a list of rows. -/
def GridText (rows : List (List (List CToken))) (text : List CToken) : Prop :=
  ∃ texts, List.Forall₂ (Joined .comma) rows texts ∧ Joined .semicolon texts text

/-- One capture for each segment, in their order. -/
def RowCaptured (args : List CToken) (nodes : List CzetCapNode) (segs : List (List CToken)) : Prop :=
  List.Forall₂ (fun n seg => ∃ start stop, n = .node [.leaf start stop] ∧ slice args start stop = seg)
    nodes segs

/-- One list of captures for each row, in their order. -/
def GridCaptured (args : List CToken) (nodes : List CzetCapNode)
    (rows : List (List (List CToken))) : Prop :=
  List.Forall₂ (fun n row => ∃ kids, n = .node kids ∧ RowCaptured args kids row) nodes rows

section Matching

variable {params : List CMacroParam} {p : Nat} {par : CMacroParam} {input : List CToken}

/-- A segment ends in front of a comma or a semicolon, a row in front of a semicolon. -/
def segmentEnds (after : List CToken) : Prop :=
  ∀ t ∈ after.head?, t.type = .comma ∨ t.type = .semicolon

def rowEnds (after : List CToken) : Prop := ∀ t ∈ after.head?, t.type = .semicolon

private theorem runCuts_segment {seg after : List CToken} {j : Nat} (hseg : RunSegment true seg)
    (hdrop : input.drop j = seg ++ after) (hafter : segmentEnds after) :
    ∃ cuts, runCuts true input j = (j + seg.length) :: cuts := by
  have hscan : scanMaxcut true 0 (seg ++ after) = seg.length := by
    apply Nat.le_antisymm
    · by_contra hlong
      have hsucc : seg.length + 1 ≤ scanMaxcut true 0 (seg ++ after) := by omega
      rw [le_scanMaxcut_iff] at hsucc
      obtain ⟨hlen, hstop⟩ := hsucc
      cases after with
      | nil => simp at hlen
      | cons t after =>
          have htake : (seg ++ t :: after).take (seg.length + 1) = seg ++ [t] := by
            rw [List.take_append]
            simp
          have htype := hafter t rfl
          have hdelta : cCzetDelta t = 0 := by
            unfold cCzetDelta
            rcases htype with h | h <;> rw [h]
          refine hstop seg.length t (Nat.lt_succ_self _) (by simp) ?_ ?_
          · rw [htake, deltaSum_append, hseg.balanced, deltaSum_cons, hdelta]
            rfl
          · exact htype.imp (fun h => ⟨rfl, h⟩) id
    · rw [le_scanMaxcut_iff]
      refine ⟨by simp, ?_⟩
      intro m t hm ht hsum
      rw [List.getElem?_append_left hm] at ht
      rw [List.take_append_of_le_length hm, Int.zero_add] at hsum
      exact hseg.unstopped m t ht hsum
  have hpos : 0 < seg.length := List.length_pos_iff.mpr hseg.nonempty
  have hbalanced : balancedRun 0 seg = true := by
    rw [balancedRun_iff (Int.le_refl 0)]
    exact ⟨by rw [hseg.balanced, Int.zero_add], fun k => by rw [Int.zero_add]; exact hseg.nonneg k⟩
  obtain ⟨n, hn⟩ := Nat.exists_eq_succ_of_ne_zero (Nat.ne_of_gt hpos)
  rw [runCuts, hdrop, hscan, hn, List.range'_1_concat, List.reverse_append, List.reverse_singleton,
    List.singleton_append, List.filter_cons_of_pos]
  · have hcut : j + 1 + n = j + (n + 1) := by omega
    exact ⟨_, by rw [hcut]⟩
  · have hcut : j + 1 + n - j = seg.length := by omega
    rw [hcut, List.take_left]
    exact hbalanced

/-- A segment as an element of a list: one leaf. -/
def segmentElement (seg : List CToken) : ListElement where
  text := seg
  trees j := [.leaf j (j + seg.length)]

/-- A row as an element of a list: one node for each segment. -/
def rowElement (row : List (List CToken)) (text : List CToken) : ListElement where
  text := text
  trees j := nodesAt j (row.map segmentElement)

theorem passesOver_segment (room : Nat) (hpar : params[p]? = some par) (hkind : par.kind = .expr)
    (hrep : par.isRepeat = true) {seg : List CToken} (hseg : RunSegment true seg) :
    PassesOver (mtNodes room params input [.cap p]) input p segmentEnds
      (segmentElement seg) := by
  intro j after caps hdrop hafter
  obtain ⟨cuts, hcuts⟩ := runCuts_segment hseg hdrop hafter
  refine ⟨czetCapLeaf (setSpan caps p j (j + seg.length)) p j (j + seg.length), ?_, ?_⟩
  · have hfixed : isFixedKind par.kind = false := by rw [hkind]; rfl
    have hbound : commaBounded par.kind = true := by rw [hkind]; rfl
    rw [mtNodes, mtNode, hpar]
    simp only [hfixed, Bool.false_eq_true, if_false, hbound, hcuts, tryCuts, mtNodes, hrep,
      if_true]
    rfl
  · rw [lst_capLeaf, if_pos rfl, lst_setSpan]
    rfl

private theorem tokEq_punct (type : CppTtype) (hname : type ≠ .name) (hkey : type ≠ .keyword)
    (t : CToken) : cCzetTokEq (punctToken type) t = true ↔ t.type = type := by
  have htype : (punctToken type).type = type := rfl
  rw [cCzetTokEq, htype, if_neg hname, if_neg hkey, decide_eq_true_eq]
  exact eq_comm

theorem mtNodes_row {room : Nat} {mod : RepMod} (hmod : mod ≠ .query)
    (hpar : params[p]? = some par) (hkind : par.kind = .expr) (hrep : par.isRepeat = true)
    {row : List (List CToken)} (hroom : row.length ≤ room) (hrow : ∀ seg ∈ row, RunSegment true seg)
    {text : List CToken} (htext : Joined .comma row text) {j : Nat} {after : List CToken}
    (hdrop : input.drop j = text ++ after) (hafter : rowEnds after) (caps : Captures) :
    ∃ caps', mtNodes room params input [.rep [.cap p] mod (some (punctToken .comma)) [p]] j caps =
        .ok (j + text.length) caps' ∧
      lst caps' p = lst caps p ++ nodesAt j (row.map segmentElement) := by
  have hpass : ∀ e ∈ row.map segmentElement,
      PassesOver (mtNodes room params input [.cap p]) input p segmentEnds e := by
    intro e he
    obtain ⟨seg, hseg, rfl⟩ := List.mem_map.mp he
    exact passesOver_segment room hpar hkind hrep (hrow seg hseg)
  have htexts : (row.map segmentElement).map ListElement.text = row := by
    rw [List.map_map]
    exact List.map_id row
  refine mtNodes_elements hmod (tokEq_punct .comma (by decide) (by decide)) ?_ ?_ ?_ hpass
    (htexts.symm ▸ htext) (by simpa using hroom) hdrop caps
  · intro t out ht t' ht'
    obtain rfl := Option.some.inj ht'
    exact Or.inl ht
  · exact fun t ht => Or.inr (hafter t ht)
  · intro t ht hcomma
    rw [hafter t ht] at hcomma
    cases hcomma

private theorem growingMatcherTree_group {room : Nat} {name : String} {call : CToken}
    (hcall : cCzetTokEq (nameToken name) call = true) {n : CzetRepNode} {text : List CToken}
    {caps : Captures}
    (hgroup : mtNodes room params (call :: text) [n] 1 noCaptures = .ok (1 + text.length) caps) :
    growingMatcherTree room params [.tok (nameToken name), n] (call :: text) = some (some caps) := by
  have hname : mtNodes room params (call :: text) [.tok (nameToken name), n] 0 noCaptures =
      .ok (1 + text.length) caps := by
    rw [mtNodes, mtNode]
    simp only [List.getElem?_cons_zero, hcall, if_true, Nat.zero_add, hgroup]
  have hend : 1 + text.length = (call :: text).length := Nat.add_comm 1 text.length
  rw [growingMatcherTree, hname]
  simp only [hend, if_true]

private theorem mtNodes_empty {room : Nat} (hpar : params[p]? = some par)
    (hkind : par.kind = .expr) {ii : Nat} (hend : input.drop ii = []) (caps : Captures) :
    ∃ caps', mtNodes room params input [.rep [.cap p] .star (some (punctToken .comma)) [p]] ii
        caps = .ok ii caps' ∧ lst caps' p = lst caps p := by
  have hfixed : isFixedKind par.kind = false := by rw [hkind]; rfl
  have hcuts : runCuts (commaBounded par.kind) input ii = [] := by
    rw [runCuts, hend]
    rfl
  have hkids : ∀ caps₁, mtNodes room params input [.cap p] ii caps₁ = .fail caps₁ := by
    intro caps₁
    rw [mtNodes, mtNode, hpar]
    simp only [hfixed, Bool.false_eq_true, if_false, hcuts, tryCuts]
  have hmem : p ∈ [p] := List.mem_singleton.mpr rfl
  let before := withLists [p] caps
  let failed := restoreLen [p] (lengths before) 0 before (wrapIter [p] before)
  have hloop : iterate (mtNodes room params input [.cap p]) input (some (punctToken .comma)) [p]
      (lengths before) room [ii] ii false before = some ([ii], failed) := by
    rw [iterate, iterProbe]
    · simp only [hkids]
      rfl
    · exact fun _ h => Bool.noConfusion h
  refine ⟨restoreLen [p] (lengths before) 0 failed failed, ?_, ?_⟩
  · rw [mtNodes, mtNode_many (by decide), hloop]
    rfl
  · have hsaved : lengths before p = (lst caps p).length := by
      rw [← lst_withLists [p] caps]
      rfl
    rw [lst_restoreLen, if_pos hmem, lst_restoreLen, if_pos hmem, lst_withLists, hsaved,
      Nat.add_zero, List.take_take, Nat.min_self, List.take_length]

/-- The match of `NAME $($x),*` takes every segment of a list. -/
theorem match_list {room : Nat} (hpar : params[p]? = some par) (hkind : par.kind = .expr)
    (hrep : par.isRepeat = true) {name : String} {call : CToken}
    (hcall : cCzetTokEq (nameToken name) call = true) {segs : List (List CToken)}
    (hroom : segs.length ≤ room) (hsegs : ∀ seg ∈ segs, RunSegment true seg) {text : List CToken}
    (htext : ListText segs text) :
    ∃ caps, growingMatcherTree room params
        [.tok (nameToken name), .rep [.cap p] .star (some (punctToken .comma)) [p]] (call :: text) =
          some (some caps) ∧
      lst caps p = nodesAt 1 (segs.map segmentElement) := by
  rcases htext with ⟨rfl, rfl⟩ | htext
  · have hnil : [call].drop 1 = [] := rfl
    obtain ⟨caps, hgroup, htrees⟩ := mtNodes_empty hpar hkind hnil noCaptures
    exact ⟨caps, growingMatcherTree_group hcall hgroup, htrees⟩
  · have hdrop : (call :: text).drop 1 = text ++ [] := (List.append_nil text).symm
    have hstar : RepMod.star ≠ .query := by decide
    obtain ⟨caps, hgroup, htrees⟩ := mtNodes_row hstar hpar hkind hrep hroom hsegs htext
      hdrop (fun t ht => nomatch ht) noCaptures
    exact ⟨caps, growingMatcherTree_group hcall hgroup, htrees⟩

theorem passesOver_row {room : Nat} (hpar : params[p]? = some par) (hkind : par.kind = .expr)
    (hrep : par.isRepeat = true) {row : List (List CToken)} (hroom : row.length ≤ room)
    (hrow : ∀ seg ∈ row, RunSegment true seg) {text : List CToken} (htext : Joined .comma row text) :
    PassesOver
      (mtNodes room params input [.rep [.cap p] .plus (some (punctToken .comma)) [p]])
      input p rowEnds (rowElement row text) := by
  intro j after caps hdrop hafter
  exact mtNodes_row (by decide) hpar hkind hrep hroom hrow htext hdrop hafter caps

private theorem zipWith_text {rows : List (List (List CToken))} {texts : List (List CToken)}
    (h : List.Forall₂ (Joined .comma) rows texts) :
    (List.zipWith rowElement rows texts).map ListElement.text = texts := by
  induction h with
  | nil => rfl
  | cons _ _ ih => rw [List.zipWith_cons_cons, List.map_cons, ih]; rfl

private theorem mem_zipWith_rows {rows : List (List (List CToken))} {texts : List (List CToken)}
    (h : List.Forall₂ (Joined .comma) rows texts) {e : ListElement}
    (he : e ∈ List.zipWith rowElement rows texts) :
    ∃ row ∈ rows, Joined .comma row e.text ∧ e = rowElement row e.text := by
  induction h with
  | nil => cases he
  | @cons row text rows texts hjoin _ ih =>
      rcases List.mem_cons.mp he with rfl | he
      · exact ⟨row, List.mem_cons_self, hjoin, rfl⟩
      · obtain ⟨row', hrow', hrest⟩ := ih he
        exact ⟨row', List.mem_cons_of_mem _ hrow', hrest⟩

/-- The match of `NAME $( $( $x ),+ );+` takes every row. -/
theorem match_grid {room : Nat} (hpar : params[p]? = some par) (hkind : par.kind = .expr)
    (hrep : par.isRepeat = true) {name : String} {call : CToken}
    (hcall : cCzetTokEq (nameToken name) call = true) {rows : List (List (List CToken))}
    (hroom : rows.length ≤ room) (hrooms : ∀ row ∈ rows, row.length ≤ room)
    (hrows : ∀ row ∈ rows, ∀ seg ∈ row, RunSegment true seg) {texts : List (List CToken)}
    {text : List CToken} (htexts : List.Forall₂ (Joined .comma) rows texts)
    (htext : Joined .semicolon texts text) :
    ∃ caps, growingMatcherTree room params
        [.tok (nameToken name), .rep [.rep [.cap p] .plus (some (punctToken .comma)) [p]] .plus
          (some (punctToken .semicolon)) [p]] (call :: text) = some (some caps) ∧
      lst caps p = nodesAt 1 (List.zipWith rowElement rows texts) := by
  have hpass : ∀ e ∈ List.zipWith rowElement rows texts, PassesOver
      (mtNodes room params (call :: text)
        [.rep [.cap p] .plus (some (punctToken .comma)) [p]]) (call :: text) p rowEnds e := by
    intro e he
    obtain ⟨row, hmem, hjoin, heq⟩ := mem_zipWith_rows htexts he
    rw [heq]
    exact passesOver_row hpar hkind hrep (hrooms row hmem) (hrows row hmem) hjoin
  have hlen : (List.zipWith rowElement rows texts).length ≤ room := by
    rw [List.length_zipWith]
    exact Nat.le_trans (Nat.min_le_left _ _) hroom
  have hplus : RepMod.plus ≠ .query := by decide
  have hdrop : (call :: text).drop 1 = text ++ [] := (List.append_nil text).symm
  have hinner : ∀ t out, t.type = .semicolon → rowEnds (t :: out) := by
    intro t out ht t' ht'
    rwa [← Option.some.inj ht']
  have hend : rowEnds [] := fun t ht => nomatch ht
  have hstop : ∀ t ∈ ([] : List CToken).head?, t.type ≠ .semicolon := fun t ht => nomatch ht
  obtain ⟨caps, hgroup, htrees⟩ := mtNodes_elements hplus
    (tokEq_punct .semicolon (by decide) (by decide)) hinner hend hstop hpass
    ((zipWith_text htexts).symm ▸ htext) hlen hdrop noCaptures
  exact ⟨caps, growingMatcherTree_group hcall hgroup, htrees⟩

end Matching

section Captured

variable {args : List CToken}

private theorem slice_of_drop {j : Nat} {seg after : List CToken} (h : args.drop j = seg ++ after) :
    slice args j (j + seg.length) = seg := by
  rw [slice, h, Nat.add_sub_cancel_left, List.take_left]

private theorem drop_separator {j : Nat} {seg after : List CToken} {t : CToken}
    (h : args.drop j = seg ++ t :: after) : args.drop (j + seg.length + 1) = after := by
  rw [Nat.add_assoc, ← List.drop_drop, h, ← List.drop_drop, List.drop_left]
  rfl

theorem rowCaptured_nodesAt {segs : List (List CToken)} {text : List CToken}
    (hjoin : Joined .comma segs text) {j : Nat} {after : List CToken}
    (hdrop : args.drop j = text ++ after) :
    RowCaptured args (nodesAt j (segs.map segmentElement)) segs := by
  induction hjoin generalizing j with
  | last seg => exact .cons ⟨_, _, rfl, slice_of_drop hdrop⟩ .nil
  | cons seg ht hjoin ih =>
      rw [List.append_assoc, List.cons_append] at hdrop
      exact .cons ⟨_, _, rfl, slice_of_drop hdrop⟩ (ih (drop_separator hdrop))

theorem gridCaptured_nodesAt {rows : List (List (List CToken))} {texts : List (List CToken)}
    {text : List CToken} (htexts : List.Forall₂ (Joined .comma) rows texts)
    (hjoin : Joined .semicolon texts text) {j : Nat} {after : List CToken}
    (hdrop : args.drop j = text ++ after) :
    GridCaptured args (nodesAt j (List.zipWith rowElement rows texts)) rows := by
  induction hjoin generalizing rows j with
  | last rowText =>
      cases htexts with
      | cons hrow hnil =>
          cases hnil
          exact .cons ⟨_, rfl, rowCaptured_nodesAt hrow hdrop⟩ .nil
  | cons rowText ht hjoin ih =>
      cases htexts with
      | cons hrow hrest =>
          rw [List.append_assoc, List.cons_append] at hdrop
          exact .cons ⟨_, rfl, rowCaptured_nodesAt hrow hdrop⟩ (ih hrest (drop_separator hdrop))

end Captured

/-- The fixed text of an expansion group: the tokens around what it repeats, its separator and its
operator. -/
structure GroupText where
  before : List CToken
  after : List CToken
  sep : Option CToken
  op : CToken

/-- `$( before content after ) sep op`. -/
def GroupText.around (g : GroupText) (content : List CToken) : List CToken :=
  groupTokens (g.before ++ (content ++ g.after)) g.sep g.op

/-- The group is one that repeats `content`: its brackets are balanced, and its operator is `*` or
`+`. -/
structure GroupText.Repeats (g : GroupText) (params : List CMacroParam) (content : List CToken) :
    Prop where
  before : ∀ t ∈ g.before, PlainToken params false t
  after : ∀ t ∈ g.after, PlainToken params false t
  balanced : balancedRun 0 (g.before ++ (content ++ g.after)) = true
  sep : ∀ s ∈ g.sep, repModOf s = none
  op : repModOf g.op = some .star ∨ repModOf g.op = some .plus

def fixedTokens (ts : List CToken) : List MarkedToken := ts.map fun t => (t, false)

def argumentTokens (ts : List CToken) : List MarkedToken := ts.map fun t => (t, true)

/-- What a group expands to: the fixed tokens around each iteration, the separator between two. -/
def GroupText.joins (g : GroupText) (iters : List (List MarkedToken)) : List MarkedToken :=
  (fixedTokens g.sep.toList).intercalate
    (iters.map fun iter => fixedTokens g.before ++ iter ++ fixedTokens g.after)

section Expanding

variable {params : List CMacroParam} {caps : Captures} {args : List CToken} {p bd : Nat}
  {par : CMacroParam}

/-- The cursors of `p` select the iterations `path`. -/
def Selected (p bd : Nat) (path : List Nat) (st : ExpandState) : Prop :=
  ∃ cur, st.cursors p = some cur ∧ cur.length = bd + 1 ∧ cur.getD bd 0 = 0 ∧
    ∀ L < path.length, cur.getD L 0 = path.getD L 0

/-- In the iterations `path`, `f` emits `out` and reports nothing. -/
def Emits (p bd : Nat) (path : List Nat) (f : ExpandState → ExpandState)
    (out : List MarkedToken) : Prop :=
  ∀ st, Selected p bd path st →
    Selected p bd path (f st) ∧ (f st).out = st.out ++ out ∧ (f st).errors = st.errors

theorem emits_comp {path : List Nat} {f g : ExpandState → ExpandState} {a b : List MarkedToken}
    (hf : Emits p bd path f a) (hg : Emits p bd path g b) :
    Emits p bd path (fun st => g (f st)) (a ++ b) := by
  intro st hst
  obtain ⟨hst₁, hout₁, herr₁⟩ := hf st hst
  obtain ⟨hst₂, hout₂, herr₂⟩ := hg (f st) hst₁
  exact ⟨hst₂, by rw [hout₂, hout₁, List.append_assoc], herr₂.trans herr₁⟩

theorem emits_emit (path : List Nat) (toks : List MarkedToken) :
    Emits p bd path (fun st => st.emit toks) toks :=
  fun _ hst => ⟨hst, rfl, rfl⟩

theorem emits_nil (path : List Nat) (depth : Nat) :
    Emits p bd path (cCzetExpandSeq params caps args [] depth) [] := by
  intro st hst
  rw [cCzetExpandSeq]
  exact ⟨hst, (List.append_nil _).symm, rfl⟩

theorem emits_cons {path : List Nat} {n : CzetRepNode} {rest : List CzetRepNode} {depth : Nat}
    {a b : List MarkedToken} (hn : Emits p bd path (expandNode params caps args n depth) a)
    (hrest : Emits p bd path (cCzetExpandSeq params caps args rest depth) b) :
    Emits p bd path (cCzetExpandSeq params caps args (n :: rest) depth) (a ++ b) := by
  have hseq : cCzetExpandSeq params caps args (n :: rest) depth =
      fun st => cCzetExpandSeq params caps args rest depth
        (expandNode params caps args n depth st) := by
    funext st
    rw [cCzetExpandSeq]
  rw [hseq]
  exact emits_comp hn hrest

theorem emits_fixed {path : List Nat} (fixed : List CToken) {rest : List CzetRepNode} {depth : Nat}
    {b : List MarkedToken}
    (hrest : Emits p bd path (cCzetExpandSeq params caps args rest depth) b) :
    Emits p bd path (cCzetExpandSeq params caps args (fixed.map .tok ++ rest) depth)
      (fixedTokens fixed ++ b) := by
  induction fixed with
  | nil => exact hrest
  | cons t fixed ih =>
      have htok : Emits p bd path (expandNode params caps args (.tok t) depth) [(t, false)] := by
        intro st hst
        rw [expandNode]
        exact emits_emit path _ st hst
      show Emits p bd path _ ([(t, false)] ++ (fixedTokens fixed ++ b))
      exact emits_cons htok ih

theorem emits_iters {path : List Nat} {body : Nat → ExpandState → ExpandState} {sep : Option CToken}
    (items : List (List MarkedToken)) (k : Nat)
    (hbody : ∀ i item, items[i]? = some item → Emits p bd path (body (k + i)) item) :
    Emits p bd path (emitIters body sep items.length k)
      ((fixedTokens sep.toList).intercalate items) := by
  induction items generalizing k with
  | nil => exact fun st hst => ⟨hst, (List.append_nil _).symm, rfl⟩
  | cons item items ih =>
      have hfirst : Emits p bd path (body k) item := hbody 0 item rfl
      cases items with
      | nil =>
          rw [List.intercalate_singleton]
          exact hfirst
      | cons item₂ items =>
          have hrest := ih (k + 1) fun i it hit => by
            rw [Nat.add_assoc, Nat.add_comm 1 i]
            exact hbody (i + 1) it hit
          rw [List.intercalate_cons_cons]
          have hjoined := emits_comp hfirst (emits_emit path (fixedTokens sep.toList))
          have hall := emits_comp hjoined hrest
          exact hall

private theorem selected_of_append {path : List Nat} {k : Nat} {st : ExpandState}
    (h : Selected p bd (path ++ [k]) st) : Selected p bd path st := by
  obtain ⟨cur, hcur, hlen, hzero, hpath⟩ := h
  refine ⟨cur, hcur, hlen, hzero, fun L hL => ?_⟩
  rw [hpath L (by rw [List.length_append]; omega)]
  simp only [List.getD_eq_getElem?_getD, List.getElem?_append_left hL]

private theorem selected_set (hpar : params[p]? = some par) (hrep : par.isRepeat = true)
    (hdepth : par.repDepth = some bd) {path : List Nat} (hpath : path.length < bd) {st : ExpandState}
    (h : Selected p bd path st) (k : Nat) :
    Selected p bd (path ++ [k])
      { st with cursors := setCursors params [p] path.length k st.cursors } := by
  obtain ⟨cur, hcur, hlen, hzero, hsel⟩ := h
  refine ⟨cur.set path.length k, ?_, by rw [List.length_set, hlen], ?_, ?_⟩
  · have hle : decide (path.length ≤ bd) = true := decide_eq_true (Nat.le_of_lt hpath)
    simp only [setCursors, hpar, hrep, hdepth, List.mem_singleton, Option.any_some, hle, and_self,
      if_true, hcur, Option.map_some]
  · rw [List.getD_eq_getElem?_getD, List.getElem?_set_ne (Nat.ne_of_lt hpath),
      ← List.getD_eq_getElem?_getD, hzero]
  · intro L hL
    rw [List.length_append, List.length_singleton] at hL
    by_cases hlast : L = path.length
    · subst hlast
      rw [List.getD_eq_getElem?_getD, List.getElem?_set_self (by omega), List.getD_eq_getElem?_getD,
        List.getElem?_concat_length]
    · have hlt : L < path.length := by omega
      rw [List.getD_eq_getElem?_getD, List.getElem?_set_ne (Ne.symm hlast),
        ← List.getD_eq_getElem?_getD, hsel L hlt, List.getD_eq_getElem?_getD,
        List.getD_eq_getElem?_getD, List.getElem?_append_left hlt]

/-- The captures of `p` inside the iterations `path`. -/
def LevelAt (nodes : List CzetCapNode) (path : List Nat) (level : List CzetCapNode) : Prop :=
  descendLevels path path.length 0 nodes = some level

private theorem levelList_selected {path : List Nat} {cur : List Nat} {nodes level : List CzetCapNode}
    (hlevel : LevelAt nodes path level)
    (hsel : ∀ L < path.length, cur.getD L 0 = path.getD L 0) :
    descendLevels cur path.length 0 nodes = some level := by
  rw [← hlevel]
  exact descendLevels_congr path.length 0 nodes (fun L _ hL => hsel L (by simpa using hL))

private theorem repCount_level (hpar : params[p]? = some par) (hrep : par.isRepeat = true)
    (hdepth : par.repDepth = some bd) {path : List Nat} (hpath : path.length < bd) {st : ExpandState}
    (h : Selected p bd path st) {level : List CzetCapNode}
    (hlevel : LevelAt (lst caps p) path level) :
    repCount params caps st.cursors path.length [p] 0 = .ok level.length := by
  obtain ⟨cur, hcur, -, -, hsel⟩ := h
  have hdescend := levelList_selected hlevel hsel
  have hnot : ¬ bd < path.length := Nat.not_lt.mpr (Nat.le_of_lt hpath)
  rw [repCount, hpar]
  simp only [hrep, hdepth, hnot, if_false, hcur, Option.getD_some]
  cases hiters : (caps p).cur with
  | none =>
      have hnil : lst caps p = [] := by rw [lst, czetCapTop, hiters]; rfl
      rw [hnil] at hdescend
      cases hlen : path.length with
      | zero =>
          rw [hlen] at hdescend
          cases hdescend
          rfl
      | succ n =>
          rw [hlen] at hdescend
          cases hdescend
  | some nodes =>
      have hnodes : lst caps p = nodes := by rw [lst, czetCapTop, hiters]; rfl
      rw [hnodes] at hdescend
      simp only [czetCapLevelList, Option.bind_eq_bind, Option.bind_some, hdescend]
      rw [if_neg (by simp), repCount]

/-- A group expands to its iterations. -/
theorem emits_group (hpar : params[p]? = some par) (hrep : par.isRepeat = true)
    (hdepth : par.repDepth = some bd) {path : List Nat} (hpath : path.length < bd)
    {kids : List CzetRepNode} {mod : RepMod} (hmod : mod ≠ .query) {sep : Option CToken}
    {level : List CzetCapNode} (hlevel : LevelAt (lst caps p) path level)
    {items : List (List MarkedToken)} (hlen : level.length = items.length)
    (hkids : ∀ k item, items[k]? = some item →
      Emits p bd (path ++ [k]) (cCzetExpandSeq params caps args kids (path.length + 1)) item) :
    Emits p bd path (expandNode params caps args (.rep kids mod sep [p]) path.length)
      ((fixedTokens sep.toList).intercalate items) := by
  intro st hst
  have hcount := repCount_level hpar hrep hdepth hpath hst hlevel
  rw [expandNode, hcount]
  simp only [hmod, if_false, hlen]
  refine emits_iters items 0 (fun i item hitem st hst => ?_) st hst
  rw [Nat.zero_add]
  obtain ⟨hst', hout, herr⟩ := hkids i item hitem _ (selected_set hpar hrep hdepth hpath hst i)
  exact ⟨selected_of_append hst', hout, herr⟩

theorem emits_param (hpar : params[p]? = some par) (hrep : par.isRepeat = true)
    (hdepth : par.repDepth = some bd) {path : List Nat} (hpath : path.length = bd) {start stop : Nat}
    (hlevel : LevelAt (lst caps p) path [.leaf start stop]) (depth : Nat) :
    Emits p bd path (expandNode params caps args (.cap p) depth)
      (argumentTokens (slice args start stop)) := by
  intro st hst
  obtain ⟨cur, hcur, hlen, hzero, hsel⟩ := hst
  have hdescend := levelList_selected hlevel hsel
  rw [hpath] at hdescend
  have hiters : (caps p).cur = some (lst caps p) := by
    cases hcur' : (caps p).cur with
    | none =>
        have hnil : lst caps p = [] := by rw [lst, czetCapTop, hcur']; rfl
        rw [hnil] at hdescend
        cases bd <;> cases hdescend
    | some nodes => rw [lst, czetCapTop, hcur']; rfl
  have hnavigate : czetCapNavigate (caps p).cur cur bd = some (.leaf start stop) := by
    rw [czetCapNavigate, hiters, czetCapLevelList]
    simp only [Option.bind_eq_bind, Option.bind_some, hdescend, hzero]
    rfl
  have hnode : expandNode params caps args (.cap p) depth st =
      st.emit (argumentTokens (slice args start stop)) := by
    rw [expandNode, hpar]
    simp only [hrep, if_true, hdepth, hcur, hnavigate, Option.bind_some, czetCapFirstLeaf]
    rfl
  rw [hnode]
  exact emits_emit path _ st ⟨cur, hcur, hlen, hzero, hsel⟩

private theorem descendLevels_succ (cur : List Nat) (n : Nat) :
    ∀ (L : Nat) (lv : List CzetCapNode), descendLevels cur (n + 1) L lv =
      (descendLevels cur n L lv).bind fun level => level[cur.getD (L + n) 0]?.bind
        CzetCapNode.kids := by
  induction n with
  | zero =>
      intro L lv
      rw [descendLevels, descendLevels]
      simp only [Nat.add_zero, Option.bind_eq_bind, Option.bind_some]
      cases lv[cur.getD L 0]? with
      | none => rfl
      | some node =>
          simp only [Option.bind_some]
          cases node.kids with
          | none => rfl
          | some kids => rfl
  | succ n ih =>
      intro L lv
      rw [descendLevels, descendLevels]
      simp only [Option.bind_eq_bind]
      cases lv[cur.getD L 0]? with
      | none => rfl
      | some node =>
          simp only [Option.bind_some]
          cases node.kids with
          | none => rfl
          | some kids =>
              simp only [Option.bind_some]
              rw [ih (L + 1) kids, Nat.add_right_comm, Nat.add_assoc]

private theorem levelAt_append {nodes level kids : List CzetCapNode} {path : List Nat}
    (h : LevelAt nodes path level) {k : Nat} (hk : level[k]? = some (.node kids)) :
    LevelAt nodes (path ++ [k]) kids := by
  have hsame : descendLevels (path ++ [k]) path.length 0 nodes = some level :=
    levelList_selected h fun L hL => by
      rw [List.getD_eq_getElem?_getD, List.getElem?_append_left hL, List.getD_eq_getElem?_getD]
  have hlast : (path ++ [k]).getD (0 + path.length) 0 = k := by
    rw [Nat.zero_add, List.getD_eq_getElem?_getD, List.getElem?_concat_length]
    rfl
  rw [LevelAt, List.length_append, List.length_singleton, descendLevels_succ, hsame, hlast]
  simp only [Option.bind_some, hk]
  rfl

theorem emits_around {path : List Nat} (before after : List CToken) {n : CzetRepNode} {depth : Nat}
    {iter : List MarkedToken} (hn : Emits p bd path (expandNode params caps args n depth) iter) :
    Emits p bd path
      (cCzetExpandSeq params caps args (before.map .tok ++ n :: after.map .tok) depth)
      (fixedTokens before ++ iter ++ fixedTokens after) := by
  have hafter : Emits p bd path (cCzetExpandSeq params caps args (after.map .tok) depth)
      (fixedTokens after) := by
    rw [← List.append_nil (after.map CzetRepNode.tok), ← List.append_nil (fixedTokens after)]
    exact emits_fixed after (emits_nil path depth)
  rw [List.append_assoc]
  exact emits_fixed before (emits_cons hn hafter)

theorem emits_joins (hpar : params[p]? = some par) (hrep : par.isRepeat = true)
    (hdepth : par.repDepth = some bd) {path : List Nat} (hpath : path.length < bd) {mod : RepMod}
    (hmod : mod ≠ .query) (g : GroupText) {n : CzetRepNode} {level : List CzetCapNode}
    (hlevel : LevelAt (lst caps p) path level) {iters : List (List MarkedToken)}
    (hlen : level.length = iters.length)
    (hn : ∀ k iter, iters[k]? = some iter →
      Emits p bd (path ++ [k]) (expandNode params caps args n (path.length + 1)) iter) :
    Emits p bd path
      (expandNode params caps args
        (.rep (g.before.map .tok ++ n :: g.after.map .tok) mod g.sep [p]) path.length)
      (g.joins iters) := by
  refine emits_group hpar hrep hdepth hpath hmod hlevel (by rw [hlen, List.length_map]) ?_
  intro k item hitem
  rw [List.getElem?_map] at hitem
  obtain ⟨iter, hiter, rfl⟩ := Option.map_eq_some_iff.mp hitem
  exact emits_around g.before g.after (hn k iter hiter)

theorem emits_row (hpar : params[p]? = some par) (hrep : par.isRepeat = true)
    (hdepth : par.repDepth = some bd) {path : List Nat} (hpath : path.length + 1 = bd) {mod : RepMod}
    (hmod : mod ≠ .query) (g : GroupText) {level : List CzetCapNode}
    (hlevel : LevelAt (lst caps p) path level) {segs : List (List CToken)}
    (hrow : RowCaptured args level segs) :
    Emits p bd path
      (expandNode params caps args
        (.rep (g.before.map .tok ++ .cap p :: g.after.map .tok) mod g.sep [p]) path.length)
      (g.joins (segs.map argumentTokens)) := by
  refine emits_joins hpar hrep hdepth (by omega) hmod g hlevel
    (by rw [hrow.length_eq, List.length_map]) ?_
  intro k iter hiter
  rw [List.getElem?_map] at hiter
  obtain ⟨seg, hseg, rfl⟩ := Option.map_eq_some_iff.mp hiter
  have hk : k < level.length := by
    rw [hrow.length_eq]
    exact (List.getElem?_eq_some_iff.mp hseg).1
  obtain ⟨start, stop, hnode, hslice⟩ := hrow.get hk (by rw [← hrow.length_eq]; exact hk)
  have hget : level[k]? = some (.node [.leaf start stop]) := by
    rw [List.getElem?_eq_getElem hk, ← hnode]
    rfl
  have hseg' : slice args start stop = seg := by
    rw [hslice]
    exact (List.getElem?_eq_some_iff.mp hseg).2
  rw [← hseg']
  exact emits_param hpar hrep hdepth (by rw [List.length_append]; exact hpath)
    (levelAt_append hlevel hget) _

theorem emits_grid (hpar : params[p]? = some par) (hrep : par.isRepeat = true)
    (hdepth : par.repDepth = some bd) {path : List Nat} (hpath : path.length + 2 = bd)
    {mod mod₂ : RepMod} (hmod : mod ≠ .query) (hmod₂ : mod₂ ≠ .query) (g g₂ : GroupText)
    {level : List CzetCapNode} (hlevel : LevelAt (lst caps p) path level)
    {rows : List (List (List CToken))} (hgrid : GridCaptured args level rows) :
    Emits p bd path
      (expandNode params caps args
        (.rep (g.before.map .tok ++
            .rep (g₂.before.map .tok ++ .cap p :: g₂.after.map .tok) mod₂ g₂.sep [p] ::
              g.after.map .tok) mod g.sep [p]) path.length)
      (g.joins (rows.map fun row => g₂.joins (row.map argumentTokens))) := by
  refine emits_joins hpar hrep hdepth (by omega) hmod g hlevel
    (by rw [hgrid.length_eq, List.length_map]) ?_
  intro k iter hiter
  rw [List.getElem?_map] at hiter
  obtain ⟨row, hrow, rfl⟩ := Option.map_eq_some_iff.mp hiter
  have hk : k < level.length := by
    rw [hgrid.length_eq]
    exact (List.getElem?_eq_some_iff.mp hrow).1
  obtain ⟨kids, hnode, hcaptured⟩ := hgrid.get hk (by rw [← hgrid.length_eq]; exact hk)
  have hget : level[k]? = some (.node kids) := by
    rw [List.getElem?_eq_getElem hk, ← hnode]
    rfl
  have hrow' : RowCaptured args kids row := by
    rw [← (List.getElem?_eq_some_iff.mp hrow).2]
    exact hcaptured
  have hlen : (path ++ [k]).length = path.length + 1 := by simp
  have hlast : (path ++ [k]).length + 1 = bd := by omega
  have hemits := emits_row hpar hrep hdepth hlast hmod₂ g₂ (levelAt_append hlevel hget) hrow'
  rw [hlen] at hemits
  exact hemits

theorem build_around (hpar : params[p]? = some par) (hdepth : par.repDepth = some bd)
    (before after : List CToken) {n : CzetRepNode} {out : List MarkedToken}
    (hn : Emits p bd [] (expandNode params caps args n 0) out) :
    cCzetBuildExpansionTree params (before.map .tok ++ n :: after.map .tok) caps args =
      (fixedTokens before ++ out ++ fixedTokens after, []) := by
  have hstart : Selected p bd [] { cursors := zeroCursors params } := by
    refine ⟨List.replicate (bd + 1) 0, ?_, List.length_replicate, ?_, ?_⟩
    · simp only [zeroCursors, hpar, Option.bind_some, hdepth, Option.map_some]
    · rw [List.getD_eq_getElem?_getD, List.getElem?_replicate_of_lt (Nat.lt_succ_self bd)]
      rfl
    · exact fun L hL => absurd hL (Nat.not_lt_zero L)
  obtain ⟨-, hout, herr⟩ := emits_around before after hn _ hstart
  rw [cCzetBuildExpansionTree]
  simp only [hout, herr, List.nil_append]

end Expanding

/-- `x` names the parameter `p`, which is declared as a repeated `expr`, and no pattern has used it
inside a number of groups other than `d`. -/
structure RepeatedExpr (params : List CMacroParam) (x : String) (p d : Nat) : Prop where
  isRef : cCzetIsParamRef (nameToken x) = true
  notStart : x ≠ "$"
  found : cCzetFindParam params x = some p
  declared : ∃ par, params[p]? = some par ∧ par.kind = .expr ∧ par.isRepeat = true ∧
    ∀ D ∈ par.repDepth, D = d

/-- The parameters of the finished definition: behind `params` only depths are recorded, each of
them once. -/
structure FinishedAs (params defParams : List CMacroParam) : Prop where
  same : SameDecls params defParams
  keep : ∀ p D, depthOf params p = some D → depthOf defParams p = some D

section Syntax

variable {params params' : List CMacroParam} {x : String} {p d : Nat}

private theorem findParam_of_sameDecls (h : SameDecls params params') (name : String) :
    cCzetFindParam params name = cCzetFindParam params' name := by
  have hmap : ∀ ps : List CMacroParam, cCzetFindParam ps name =
      (ps.map fun par => (par.name, par.kind, par.isRepeat)).findIdx?
        fun decl => decide (decl.1 = name) := by
    intro ps
    rw [List.findIdx?_map]
    rfl
  rw [hmap, hmap, h]

private theorem plain_of_sameDecls (h : SameDecls params params') {isPattern : Bool} {t : CToken}
    (ht : PlainToken params isPattern t) : PlainToken params' isPattern t := by
  refine ⟨ht.notStart, fun hparam => ?_⟩
  rw [← findParam_of_sameDecls h]
  exact ht.notParam hparam

private theorem repeats_of_sameDecls (h : SameDecls params params') {g : GroupText}
    {content : List CToken} (hg : g.Repeats params content) : g.Repeats params' content :=
  ⟨fun t ht => plain_of_sameDecls h (hg.before t ht),
    fun t ht => plain_of_sameDecls h (hg.after t ht), hg.balanced, hg.sep, hg.op⟩

/-- The parameter behind its use in the pattern. -/
structure RecordedExpr (params : List CMacroParam) (p d : Nat) (par : CMacroParam) : Prop where
  here : params[p]? = some par
  kind : par.kind = .expr
  isRepeat : par.isRepeat = true
  depth : par.repDepth = some d

private theorem RepeatedExpr.bind (h : RepeatedExpr params x p d) (hd : d ≠ 0) :
    ∃ par params' par', params[p]? = some par ∧ bindRepDepth params p par d true = .ok params' ∧
      SameDecls params params' ∧ RecordedExpr params' p d par' := by
  obtain ⟨par, hpar, hkind, hrep, hdepth⟩ := h.declared
  cases hD : par.repDepth with
  | none =>
      refine ⟨par, params.set p { par with repDepth := some d }, { par with repDepth := some d },
        hpar,
        ?_, sameDecls_set hpar _, ?_, hkind, hrep, rfl⟩
      · simp [bindRepDepth, hrep, hD, hd]
      · exact List.getElem?_set_self (List.getElem?_eq_some_iff.mp hpar).1
  | some D =>
      obtain rfl : D = d := hdepth D hD
      refine ⟨par, params, par, hpar, ?_, rfl, hpar, hkind, hrep, hD⟩
      simp [bindRepDepth, hrep, hD, hd]

private theorem RecordedExpr.finished {par : CMacroParam} (h : RecordedExpr params p d par)
    (hfinished : FinishedAs params params') : ∃ par', RecordedExpr params' p d par' := by
  have hdecl := congrArg (fun l => l[p]?) hfinished.same
  simp only [List.getElem?_map, h.here, Option.map_some] at hdecl
  obtain ⟨par', hpar', heq⟩ := Option.map_eq_some_iff.mp hdecl.symm
  obtain ⟨-, hkind, hrep⟩ : _ ∧ par'.kind = par.kind ∧ par'.isRepeat = par.isRepeat := by
    simpa only [Prod.mk.injEq] using heq
  have hdepth := hfinished.keep p d (by rw [depthOf, h.here]; exact h.depth)
  rw [depthOf, hpar'] at hdepth
  exact ⟨par', hpar', hkind.trans h.kind, hrep.trans h.isRepeat, hdepth⟩

private theorem balancedRun_param (x : String) : balancedRun 0 [nameToken x] = true := by
  have hdelta : cCzetDelta (nameToken x) = 0 := rfl
  simp [balancedRun, hdelta]

private theorem parsesTo_listGroup {rdep : Nat} {op : CToken} {mod : RepMod}
    (hop : repModOf op = some mod) (hx : RepeatedExpr params x p (rdep + 1)) :
    ∃ params' par', SameDecls params params' ∧ RecordedExpr params' p (rdep + 1) par' ∧
      ParsesTo true rdep params (groupTokens [nameToken x] (some (punctToken .comma)) op)
        [.rep [.cap p] mod (some (punctToken .comma)) [p]] params' := by
  obtain ⟨par, params', par', hpar, hbind, hsame, hrecorded⟩ := hx.bind (Nat.succ_ne_zero rdep)
  have hparam := parsesTo_param hx.isRef hx.notStart hx.found hpar hbind parsesTo_nil
  have hsep : ∀ s ∈ some (punctToken .comma), repModOf s = none := by
    rintro s ⟨⟩
    rfl
  have hgroup := parsesTo_group hparam (balancedRun_param x) (List.cons_ne_nil _ _) hsep hop
    parsesTo_nil
  rw [List.append_nil] at hgroup
  exact ⟨params', par', hsame, hrecorded, hgroup⟩

private theorem parse_listPattern {name : String}
    (hname : PlainToken params true (nameToken name)) (hx : RepeatedExpr params x p 1) :
    ∃ params' par', cCzetParseTree params (listPattern name x) true =
        .ok ([.tok (nameToken name), .rep [.cap p] .star (some (punctToken .comma)) [p]], params') ∧
      SameDecls params params' ∧ RecordedExpr params' p 1 par' := by
  have hop : repModOf (punctToken .mult) = some .star := rfl
  obtain ⟨params', par', hsame, hrecorded, hgroup⟩ := parsesTo_listGroup hop hx
  exact ⟨params', par', (parsesTo_plain hname hgroup).parseTree, hsame, hrecorded⟩

private theorem parse_gridPattern {name : String}
    (hname : PlainToken params true (nameToken name)) (hx : RepeatedExpr params x p 2) :
    ∃ params' par', cCzetParseTree params (gridPattern name x) true =
        .ok ([.tok (nameToken name), .rep [.rep [.cap p] .plus (some (punctToken .comma)) [p]] .plus
          (some (punctToken .semicolon)) [p]], params') ∧
      SameDecls params params' ∧ RecordedExpr params' p 2 par' := by
  have hop : repModOf (punctToken .plus) = some .plus := rfl
  obtain ⟨params', par', hsame, hrecorded, hinner⟩ := parsesTo_listGroup hop hx
  refine ⟨params', par', ?_, hsame, hrecorded⟩
  have hbalanced : balancedRun 0
      (groupTokens [nameToken x] (some (punctToken .comma)) (punctToken .plus)) = true := by
    simp [groupTokens, balancedRun, cCzetDelta, punctToken, nameToken]
  have hsep : ∀ s ∈ some (punctToken .semicolon), repModOf s = none := by
    rintro s ⟨⟩
    rfl
  have hgroup := parsesTo_group hinner hbalanced (List.cons_ne_nil _ _) hsep hop parsesTo_nil
  rw [List.append_nil] at hgroup
  exact (parsesTo_plain hname hgroup).parseTree

private theorem collect_around {n : CzetRepNode} (before after : List CToken) :
    cCzetCollectUsesSeq (before.map .tok ++ n :: after.map .tok) [] = cCzetCollectUsesNode n [] := by
  have hfixed : ∀ (ts : List CToken) (rest : List CzetRepNode) (out : List Nat),
      cCzetCollectUsesSeq (ts.map .tok ++ rest) out = cCzetCollectUsesSeq rest out := by
    intro ts rest out
    induction ts with
    | nil => rfl
    | cons t ts ih =>
        rw [List.map_cons, List.cons_append, cCzetCollectUsesSeq, cCzetCollectUsesNode, ih]
  have hnil := hfixed after [] (cCzetCollectUsesNode n [])
  rw [List.append_nil] at hnil
  rw [hfixed, cCzetCollectUsesSeq, hnil, cCzetCollectUsesSeq]

private def ParsesAs (params : List CMacroParam) (rdep : Nat) (content : List CToken)
    (n : CzetRepNode) : Prop :=
  ∀ ts nodes, ParsesTo false rdep params ts nodes params →
    ParsesTo false rdep params (content ++ ts) (n :: nodes) params

private theorem parsesAs_param {par : CMacroParam} (hx : RepeatedExpr params x p d)
    (hpar : RecordedExpr params p d par) {rdep : Nat} :
    ParsesAs params (rdep + 1) [nameToken x] (.cap p) := by
  intro ts nodes h
  have hbind : bindRepDepth params p par (rdep + 1) false = .ok params := by
    simp [bindRepDepth, hpar.isRepeat]
  exact parsesTo_param hx.isRef hx.notStart hx.found hpar.here hbind h

private theorem parsesAs_around {g : GroupText} {content : List CToken} {n : CzetRepNode}
    {rdep : Nat} (hg : g.Repeats params content) (hcontent : ParsesAs params (rdep + 1) content n)
    (huses : cCzetCollectUsesNode n [] = [p]) :
    ∃ mod, mod ≠ .query ∧ ParsesAs params rdep (g.around content)
      (.rep (g.before.map .tok ++ n :: g.after.map .tok) mod g.sep [p]) := by
  obtain ⟨mod, hop, hmod⟩ : ∃ mod, repModOf g.op = some mod ∧ mod ≠ .query := by
    rcases hg.op with h | h
    · exact ⟨_, h, by decide⟩
    · exact ⟨_, h, by decide⟩
  refine ⟨mod, hmod, fun ts nodes h => ?_⟩
  have hnil : ParsesTo false (rdep + 1) params [] [] params := parsesTo_nil
  have hafter := parsesTo_plains hg.after hnil
  rw [List.append_nil, List.append_nil] at hafter
  have hgroup := parsesTo_group (parsesTo_plains hg.before (hcontent _ _ hafter)) hg.balanced
    (by simp) hg.sep hop h
  rwa [collect_around, huses] at hgroup

private theorem parse_expansion {before after content : List CToken} {n : CzetRepNode}
    (hplain : ∀ t ∈ before ++ after, PlainToken params false t)
    (hcontent : ParsesAs params 0 content n) :
    cCzetParseTree params (before ++ (content ++ after)) false =
      .ok (before.map .tok ++ n :: after.map .tok, params) := by
  have hnil : ParsesTo false 0 params [] [] params := parsesTo_nil
  have hafter := parsesTo_plains (fun t ht => hplain t (List.mem_append_right _ ht)) hnil
  rw [List.append_nil, List.append_nil] at hafter
  exact (parsesTo_plains (fun t ht => hplain t (List.mem_append_left _ ht))
    (hcontent _ _ hafter)).parseTree

private theorem RepeatedExpr.recorded {par : CMacroParam} (h : RepeatedExpr params x p d)
    (hsame : SameDecls params params') (hpar : RecordedExpr params' p d par) :
    RepeatedExpr params' x p d :=
  ⟨h.isRef, h.notStart, findParam_of_sameDecls hsame x ▸ h.found, par, hpar.here, hpar.kind,
    hpar.isRepeat, fun D hD => by rw [hpar.depth] at hD; exact (Option.some.inj hD).symm⟩

end Syntax

/-- With room for `room` iterations of a group, `args` matches the pattern; `captured` holds of what
is captured for `p`, and the expansion is `out`, with no error. -/
def MapsTo (room : Nat) (params : List CMacroParam) (p : Nat) (pattern expansion : List CzetRepNode)
    (args : List CToken) (captured : List CzetCapNode → Prop) (out : List MarkedToken) : Prop :=
  ∃ caps, growingMatcherTree room params pattern args = some (some caps) ∧ captured (lst caps p) ∧
    cCzetBuildExpansionTree params expansion caps args = (out, [])

/-- An arm `NAME $($x),* => before $( ... $x ... ) ... after`: it parses, and every list of segments is
matched segment by segment and expanded in its order. -/
def MapsLists (params : List CMacroParam) (name x : String) (p : Nat) (before after : List CToken)
    (g : GroupText) : Prop :=
  ∃ tree params' exp, cCzetParseTree params (listPattern name x) true = .ok (tree, params') ∧
    cCzetParseTree params' (before ++ (g.around [nameToken x] ++ after)) false =
      .ok (exp, params') ∧
    ∀ defParams, FinishedAs params' defParams → ∀ call segs text room,
      cCzetTokEq (nameToken name) call = true → ListText segs text →
      (∀ seg ∈ segs, RunSegment true seg) → segs.length ≤ room →
        MapsTo room defParams p tree exp (call :: text)
          (fun nodes => RowCaptured (call :: text) nodes segs)
          (fixedTokens before ++ g.joins (segs.map argumentTokens) ++ fixedTokens after)

/-- An arm `NAME $( $( $x ),+ );+ => before $( ... $( ... $x ... ) ... ) ... after`: it parses, and
every list of rows is matched row by row and expanded in its order. -/
def MapsGrids (params : List CMacroParam) (name x : String) (p : Nat) (before after : List CToken)
    (g g₂ : GroupText) : Prop :=
  ∃ tree params' exp, cCzetParseTree params (gridPattern name x) true = .ok (tree, params') ∧
    cCzetParseTree params' (before ++ (g.around (g₂.around [nameToken x]) ++ after)) false =
      .ok (exp, params') ∧
    ∀ defParams, FinishedAs params' defParams → ∀ call rows text room,
      cCzetTokEq (nameToken name) call = true → GridText rows text →
      (∀ row ∈ rows, ∀ seg ∈ row, RunSegment true seg) → rows.length ≤ room →
      (∀ row ∈ rows, row.length ≤ room) →
        MapsTo room defParams p tree exp (call :: text)
          (fun nodes => GridCaptured (call :: text) nodes rows)
          (fixedTokens before ++ g.joins (rows.map fun row => g₂.joins (row.map argumentTokens)) ++
            fixedTokens after)

section Mapping

variable {params : List CMacroParam} {name x : String} {p : Nat} {before after : List CToken}

theorem maps_lists (hname : PlainToken params true (nameToken name))
    (hplain : ∀ t ∈ before ++ after, PlainToken params false t) (hx : RepeatedExpr params x p 1)
    {g : GroupText} (hg : g.Repeats params [nameToken x]) :
    MapsLists params name x p before after g := by
  obtain ⟨params', par', hpattern, hsame, hrecorded⟩ := parse_listPattern hname hx
  obtain ⟨mod, hmod, hgroup⟩ := parsesAs_around (repeats_of_sameDecls hsame hg)
    (parsesAs_param (hx.recorded hsame hrecorded) hrecorded) rfl
  refine ⟨_, params', _, hpattern,
    parse_expansion (fun t ht => plain_of_sameDecls hsame (hplain t ht)) hgroup, ?_⟩
  intro defParams hfinished call segs text room hcall htext hsegs hroom
  obtain ⟨par, hpar⟩ := hrecorded.finished hfinished
  obtain ⟨caps, hmatch, htrees⟩ := match_list hpar.here hpar.kind hpar.isRepeat hcall hroom hsegs
    htext
  have hcaptured : RowCaptured (call :: text) (lst caps p) segs := by
    rw [htrees]
    rcases htext with ⟨rfl, -⟩ | hjoin
    · exact .nil
    · exact rowCaptured_nodesAt hjoin (List.append_nil text).symm
  have hlevel : LevelAt (lst caps p) [] (lst caps p) := rfl
  have hgroup' := emits_row hpar.here hpar.isRepeat hpar.depth rfl hmod g hlevel hcaptured
  exact ⟨caps, hmatch, hcaptured, build_around hpar.here hpar.depth before after hgroup'⟩

theorem maps_grids (hname : PlainToken params true (nameToken name))
    (hplain : ∀ t ∈ before ++ after, PlainToken params false t) (hx : RepeatedExpr params x p 2)
    {g g₂ : GroupText} (hg₂ : g₂.Repeats params [nameToken x])
    (hg : g.Repeats params (g₂.around [nameToken x])) :
    MapsGrids params name x p before after g g₂ := by
  obtain ⟨params', par', hpattern, hsame, hrecorded⟩ := parse_gridPattern hname hx
  obtain ⟨mod₂, hmod₂, hinner⟩ := parsesAs_around (repeats_of_sameDecls hsame hg₂)
    (parsesAs_param (hx.recorded hsame hrecorded) hrecorded) rfl
  obtain ⟨mod, hmod, hgroup⟩ := parsesAs_around (repeats_of_sameDecls hsame hg) hinner
    (by rw [cCzetCollectUsesNode, collect_around]; rfl)
  refine ⟨_, params', _, hpattern,
    parse_expansion (fun t ht => plain_of_sameDecls hsame (hplain t ht)) hgroup, ?_⟩
  rintro defParams hfinished call rows text room hcall ⟨texts, htexts, hjoin⟩ hrows hroom hrooms
  obtain ⟨par, hpar⟩ := hrecorded.finished hfinished
  obtain ⟨caps, hmatch, htrees⟩ := match_grid hpar.here hpar.kind hpar.isRepeat hcall hroom hrooms
    hrows htexts hjoin
  have hcaptured : GridCaptured (call :: text) (lst caps p) rows := by
    rw [htrees]
    exact gridCaptured_nodesAt htexts hjoin (List.append_nil text).symm
  have hlevel : LevelAt (lst caps p) [] (lst caps p) := rfl
  have hgroup' := emits_grid hpar.here hpar.isRepeat hpar.depth rfl hmod hmod₂ g g₂ hlevel hcaptured
  exact ⟨caps, hmatch, hcaptured, build_around hpar.here hpar.depth before after hgroup'⟩

end Mapping

/-- Variadic macros map lists element by element, at one level and at two. -/
theorem variadic_macros_map (params : List CMacroParam) (name x : String) (p : Nat)
    (before after : List CToken) (hname : PlainToken params true (nameToken name))
    (hplain : ∀ t ∈ before ++ after, PlainToken params false t) :
    (RepeatedExpr params x p 1 → ∀ g : GroupText, g.Repeats params [nameToken x] →
      MapsLists params name x p before after g) ∧
    (RepeatedExpr params x p 2 → ∀ g g₂ : GroupText, g₂.Repeats params [nameToken x] →
      g.Repeats params (g₂.around [nameToken x]) →
      MapsGrids params name x p before after g g₂) :=
  ⟨fun hx _ hg => maps_lists hname hplain hx hg,
    fun hx _ _ hg₂ hg => maps_grids hname hplain hx hg₂ hg⟩

section Grid

private def gridParams : List CMacroParam := [{ name := "$x", kind := .expr, isRepeat := true }]

/-- `$( row $( $x ; )+ )+` -/
private def rowGroup : GroupText := ⟨[nameToken "row"], [], none, punctToken .plus⟩

private def cellGroup : GroupText := ⟨[], [punctToken .semicolon], none, punctToken .plus⟩

private theorem runSegment_name (s : String) : RunSegment true [nameToken s] := by
  have hdelta : cCzetDelta (nameToken s) = 0 := rfl
  refine ⟨List.cons_ne_nil _ _, ?_, ?_, ?_⟩
  · intro k
    cases k with
    | zero => exact Int.le_refl 0
    | succ k => simp [deltaSum, hdelta]
  · simp [deltaSum, hdelta]
  · intro k t ht _ hstop
    cases k with
    | zero =>
        obtain rfl : nameToken s = t := by simpa using ht
        rcases hstop with ⟨-, h⟩ | h <;> cases h
    | succ k => simp at ht

private theorem plain_text : ∀ t ∈ [nameToken "row", punctToken .semicolon],
    PlainToken gridParams false t := by
  intro t ht
  rcases List.mem_pair.mp ht with rfl | rfl
  · exact ⟨rfl, fun h => absurd h (by decide)⟩
  · exact ⟨rfl, fun h => absurd h (by decide)⟩

private theorem cellGroup_repeats : cellGroup.Repeats gridParams [nameToken "$x"] := by
  refine ⟨fun t ht => absurd ht List.not_mem_nil, ?_, by decide,
    fun s hs => absurd hs (Option.not_mem_none s), Or.inr rfl⟩
  intro t ht
  exact plain_text t (List.mem_cons_of_mem _ ht)

private theorem rowGroup_repeats :
    rowGroup.Repeats gridParams (cellGroup.around [nameToken "$x"]) := by
  refine ⟨?_, fun t ht => absurd ht List.not_mem_nil, by decide,
    fun s hs => absurd hs (Option.not_mem_none s), Or.inr rfl⟩
  intro t ht
  obtain rfl := List.mem_singleton.mp ht
  exact plain_text _ List.mem_cons_self

private def cellRows : List (List (List CToken)) :=
  [[[nameToken "a"], [nameToken "b"]], [[nameToken "c"]]]

/-- `a, b; c` -/
private def cellText : List CToken :=
  [nameToken "a", punctToken .comma, nameToken "b", punctToken .semicolon, nameToken "c"]

private theorem gridText_cells : GridText cellRows cellText := by
  refine ⟨[[nameToken "a", punctToken .comma, nameToken "b"], [nameToken "c"]], ?_, ?_⟩
  · exact .cons (.cons [nameToken "a"] rfl (.last [nameToken "b"])) (.cons (.last _) .nil)
  · exact .cons [nameToken "a", punctToken .comma, nameToken "b"] rfl (.last [nameToken "c"])

private theorem cellRows_segments : ∀ row ∈ cellRows, ∀ seg ∈ row, RunSegment true seg := by
  intro row hrow seg hseg
  obtain ⟨s, rfl⟩ : ∃ s, seg = [nameToken s] := by
    rcases List.mem_pair.mp hrow with rfl | rfl
    · rcases List.mem_pair.mp hseg with rfl | rfl
      · exact ⟨"a", rfl⟩
      · exact ⟨"b", rfl⟩
    · exact ⟨"c", List.mem_singleton.mp hseg⟩
  exact runSegment_name s

/-- `GRID<a, b; c>` is matched and expanded row by row. -/
theorem grid_of_three_cells :
    ∃ tree params' exp, cCzetParseTree gridParams (gridPattern "GRID" "$x") true =
      .ok (tree, params') ∧
      MapsTo 7 params' 0 tree exp (nameToken "GRID" :: cellText)
        (fun nodes => GridCaptured (nameToken "GRID" :: cellText) nodes cellRows)
        [(nameToken "row", false), (nameToken "a", true), (punctToken .semicolon, false),
          (nameToken "b", true), (punctToken .semicolon, false), (nameToken "row", false),
          (nameToken "c", true), (punctToken .semicolon, false)] := by
  have hname : PlainToken gridParams true (nameToken "GRID") :=
    ⟨rfl, fun h => absurd h (by decide)⟩
  have hx : RepeatedExpr gridParams "$x" 0 2 :=
    ⟨rfl, by decide, rfl, _, rfl, rfl, rfl, fun D hD => absurd hD (Option.not_mem_none D)⟩
  obtain ⟨tree, params', exp, hpattern, -, hmaps⟩ :=
    (variadic_macros_map gridParams "GRID" "$x" 0 [] [] hname
      (fun t ht => absurd ht List.not_mem_nil)).2 hx rowGroup cellGroup cellGroup_repeats
        rowGroup_repeats
  have hall := hmaps params' ⟨rfl, fun _ _ h => h⟩ (nameToken "GRID") cellRows cellText 7
    (cCzetTokEq_refl _) gridText_cells cellRows_segments (by decide) (by decide)
  exact ⟨tree, params', exp, hpattern, hall⟩

end Grid

end CZet

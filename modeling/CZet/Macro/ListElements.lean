/- source: src/gcc/gcc/c/c-parser.cc (c_czet_mt_nodes)
   digest: The run of the tree matcher over a list of elements with separators between them. -/

import CZet.Macro.Captures

set_option autoImplicit false
set_option relaxedAutoImplicit false

namespace CZet

/-- Token lists one after the other, with a token of the given type between two of them. -/
inductive Joined (type : CppTtype) : List (List CToken) → List CToken → Prop
  | last (seg : List CToken) : Joined type [seg] seg
  | cons (seg : List CToken) {t : CToken} {segs : List (List CToken)} {out : List CToken} :
      t.type = type → Joined type segs out → Joined type (seg :: segs) (seg ++ t :: out)

/-- An element of a list: its tokens, and what a pass over it captures for the parameter in question,
by the place where it starts. -/
structure ListElement where
  text : List CToken
  trees : Nat → List CzetCapNode

/-- What the passes over the elements from `j` on capture. -/
def nodesAt : Nat → List ListElement → List CzetCapNode
  | _, [] => []
  | j, e :: els => .node (e.trees j) :: nodesAt (j + e.text.length + 1) els

theorem length_nodesAt (j : Nat) (els : List ListElement) : (nodesAt j els).length = els.length := by
  induction els generalizing j with
  | nil => rfl
  | cons e els ih => simp only [nodesAt, List.length_cons, ih]

/-- Wherever `e` stands in front of a text that ends it, a pass takes just `e`. -/
def PassesOver (kids : Nat → Captures → MtResult) (input : List CToken) (p : Nat)
    (ends : List CToken → Prop) (e : ListElement) : Prop :=
  ∀ j after caps, input.drop j = e.text ++ after → ends after →
    ∃ caps', kids j caps = .ok (j + e.text.length) caps' ∧ lst caps' p = lst caps p ++ e.trees j

section Loop

variable {kids : Nat → Captures → MtResult} {input : List CToken} {s : CToken} {type : CppTtype}
  {p : Nat} {ends : List CToken → Prop} {after : List CToken}

private theorem drop_behind {i : Nat} {pre post : List CToken} (h : input.drop i = pre ++ post) :
    input.drop (i + pre.length) = post := by
  rw [← List.drop_drop, h, List.drop_left]

private theorem head_of_drop {i : Nat} {t : CToken} {post : List CToken}
    (h : input.drop i = t :: post) : input[i]? = some t := by
  have := congrArg List.head? h
  rwa [List.head?_drop] at this

theorem iterate_elements (hsep : ∀ t, cCzetTokEq s t = true ↔ t.type = type)
    (hinner : ∀ t out, t.type = type → ends (t :: out)) (hend : ends after)
    (hstop : ∀ t ∈ after.head?, t.type ≠ type) (savedLen : Nat → Nat) (els : List ListElement)
    (hpass : ∀ e ∈ els, PassesOver kids input p ends e) (text : List CToken)
    (hjoin : Joined type (els.map ListElement.text) text) (room : Nat) (hroom : els.length ≤ room)
    (posAfter : List Nat) (cur : Nat) (needSep : Bool) (caps : Captures) (probe : Nat)
    (hprobe : iterProbe input (some s) needSep cur = some probe)
    (hdrop : input.drop probe = text ++ after) :
    ∃ more caps', iterate kids input (some s) [p] savedLen room posAfter cur needSep caps =
        some (posAfter ++ more, caps') ∧ more.length = els.length ∧
      more.getLast? = some (probe + text.length) ∧
      lst caps' p = lst caps p ++ nodesAt probe els := by
  induction els generalizing text room posAfter cur needSep caps probe with
  | nil => cases hjoin
  | cons e els ih =>
      obtain ⟨r, rfl⟩ := Nat.exists_eq_succ_of_ne_zero
        (Nat.ne_of_gt (Nat.lt_of_lt_of_le (Nat.succ_pos _) hroom))
      obtain ⟨he, hels⟩ := List.forall_mem_cons.mp hpass
      -- one pass over `e`, whatever stands behind it
      have hstep : ∀ behind, input.drop probe = e.text ++ behind → ends behind →
          ∃ caps₁, lst caps₁ p = lst caps p ++ [.node (e.trees probe)] ∧
            iterate kids input (some s) [p] savedLen (r + 1) posAfter cur needSep caps =
              iterate kids input (some s) [p] savedLen r (posAfter ++ [probe + e.text.length])
                (probe + e.text.length) true caps₁ := by
        intro behind hbehind hends
        obtain ⟨caps', hkids, htrees⟩ := he probe behind (wrapIter [p] caps) hbehind hends
        refine ⟨popIter [p] caps caps', ?_, ?_⟩
        · rw [lst_wrapIter, if_pos (List.mem_singleton.mpr rfl), List.nil_append] at htrees
          rw [lst_popIter, if_pos (List.mem_singleton.mpr rfl), htrees]
        · rw [iterate, hprobe]
          simp only [hkids, Option.isSome_some]
      cases els with
      | nil =>
          obtain rfl : text = e.text := by
            rw [List.map_cons, List.map_nil] at hjoin
            cases hjoin with
            | last => rfl
            | cons _ _ hrest => cases hrest
          obtain ⟨caps₁, htrees, hloop⟩ := hstep after hdrop hend
          have hbehind := drop_behind hdrop
          have hdone : iterProbe input (some s) true (probe + e.text.length) = none := by
            rw [iterProbe]
            cases after with
            | nil =>
                have hlen := congrArg List.length hbehind
                simp only [List.length_drop, List.length_nil] at hlen
                rw [List.getElem?_eq_none (by omega)]
            | cons t after =>
                rw [head_of_drop hbehind]
                simp only [hsep, hstop t rfl, if_false]
          refine ⟨[probe + e.text.length], caps₁, ?_, rfl, rfl, htrees⟩
          rw [hloop, iterate, hdone]
      | cons e₂ els =>
          rw [List.map_cons, List.map_cons] at hjoin
          cases hjoin with
          | @cons _ t _ out ht hrest =>
              rw [List.append_assoc, List.cons_append] at hdrop
              obtain ⟨caps₁, htrees, hloop⟩ := hstep _ hdrop (hinner t _ ht)
              have hbehind := drop_behind hdrop
              have hprobe' : iterProbe input (some s) true (probe + e.text.length) =
                  some (probe + e.text.length + 1) := by
                rw [iterProbe, head_of_drop hbehind]
                simp only [hsep, ht, if_true]
              have hdrop' : input.drop (probe + e.text.length + 1) = out ++ after := by
                rw [← List.drop_drop, hbehind]
                rfl
              obtain ⟨more, caps', hrun, hlen, hlast, htrees'⟩ := ih hels out hrest r
                (Nat.le_of_succ_le_succ hroom) (posAfter ++ [probe + e.text.length]) _ true caps₁ _
                hprobe' hdrop'
              refine ⟨(probe + e.text.length) :: more, caps', ?_, ?_, ?_, ?_⟩
              · rw [hloop, hrun, List.append_assoc]
                rfl
              · rw [List.length_cons, hlen]
                rfl
              · rw [List.getLast?_cons, hlast]
                simp only [Option.getD_some, List.length_append, List.length_cons,
                  Option.some.injEq]
                omega
              · rw [htrees', htrees, List.append_assoc]
                rfl

private theorem countsDown_head {minIt m : Nat} (h : minIt ≤ m) :
    ∃ ts, countsDown minIt m = m :: ts := by
  refine ⟨(List.range' minIt (m - minIt)).reverse, ?_⟩
  have hlen : m + 1 - minIt = m - minIt + 1 := by omega
  have hlast : minIt + (m - minIt) = m := by omega
  rw [countsDown, hlen, List.range'_1_concat, List.reverse_append, hlast]
  rfl

/-- A group at the end of a pattern takes all elements of a list that is not empty. -/
theorem mtNodes_elements {params : List CMacroParam} {nodes : List CzetRepNode} {mod : RepMod}
    (hmod : mod ≠ .query) (hsep : ∀ t, cCzetTokEq s t = true ↔ t.type = type)
    (hinner : ∀ t out, t.type = type → ends (t :: out)) (hend : ends after)
    (hstop : ∀ t ∈ after.head?, t.type ≠ type) {room : Nat} {els : List ListElement}
    (hpass : ∀ e ∈ els, PassesOver (mtNodes room params input nodes) input p ends e)
    {text : List CToken} (hjoin : Joined type (els.map ListElement.text) text)
    (hroom : els.length ≤ room) {ii : Nat} (hdrop : input.drop ii = text ++ after) (caps : Captures) :
    ∃ caps', mtNodes room params input [.rep nodes mod (some s) [p]] ii caps =
        .ok (ii + text.length) caps' ∧ lst caps' p = lst caps p ++ nodesAt ii els := by
  have hpos : 0 < els.length := by
    cases els with
    | nil => cases hjoin
    | cons e els => exact Nat.succ_pos _
  obtain ⟨more, caps₁, hloop, hlen, hlast, htrees⟩ := iterate_elements hsep hinner hend hstop
    (lengths (withLists [p] caps)) els hpass text hjoin room hroom [ii] ii false
      (withLists [p] caps) ii
    rfl hdrop
  rw [lst_withLists] at htrees
  have hcount : ([ii] ++ more).length - 1 = els.length := by
    rw [List.length_append, List.length_singleton, hlen]
    omega
  have hmin : minIter mod ≤ els.length := by
    unfold minIter
    split <;> omega
  obtain ⟨ts, hts⟩ := countsDown_head hmin
  have hstopAt : ([ii] ++ more).getD els.length 0 = ii + text.length := by
    rw [List.getLast?_eq_getElem?, hlen] at hlast
    rw [List.getD_eq_getElem?_getD, List.getElem?_append_right hpos]
    simp only [List.length_singleton, hlast, Option.getD_some]
  refine ⟨restoreLen [p] (lengths (withLists [p] caps)) els.length caps₁ caps₁, ?_, ?_⟩
  · rw [mtNodes, mtNode_many hmod, hloop]
    simp only [hcount, hts, backtrack, hstopAt, mtNodes]
  · have hsaved : lengths (withLists [p] caps) p = (lst caps p).length := by
      rw [← lst_withLists [p] caps]
      rfl
    rw [lst_restoreLen, if_pos (List.mem_singleton.mpr rfl), hsaved, htrees, List.take_of_length_le]
    rw [List.length_append, length_nodesAt]

end Loop

end CZet

import Outline.Declaration.Head
import Outline.Proofs.Relayout.Members

/-!
# Heads without their layout

The head of a declaration that is found in front of a body differs at most in what the layout may
change.

* `Spelling.head` — what is compared of a head.
* `Spelling.search_trees` — the head in front of a body is the same.
-/

namespace Outline

namespace Spelling

variable (σ : Spelling)

/-! ## What is compared -/

/-- What is compared of the name of a declaration: only a namespace has a name that is the text of
an identifier. -/
def headName (kind : DeclarationKind) (name : List String) : List String :=
  if kind.hasMembers then name else name.map σ.name

/-- What is compared of a head. -/
def head (h : Head) : Head :=
  { h with
    name := σ.headName h.kind h.name
    typeParams := h.typeParams.map σ.typeParam
    annotations := []
    position := {} }

/-! ## Names and type parameters -/

theorem readName_tree (kind : DeclarationKind) (t : TokenTree) :
    (Head.readName kind (σ.tree t)).1.map (Prod.map (σ.headName kind) id) =
      (Head.readName kind t).1.map (Prod.map (σ.headName kind) id) := by
  unfold Head.readName
  rw [kind_tree, text_tree]
  cases hkind : t.kind with
  | identifier =>
      rw [text_identifier hkind]
      have hparse := σ.parse_word t.value.text
      cases kind with
      | package =>
          simp only [Option.map_some, Prod.map_apply, headName, DeclarationKind.hasMembers,
            Bool.false_eq_true, if_false, σ.parts_word]
      | _ =>
          revert hparse
          cases TypeRef.parse (σ.word t.value.text) <;> cases TypeRef.parse t.value.text <;>
            intro hparse <;> cases hparse <;> rfl
  | string => rw [text_string hkind]
  | _ => cases kind <;> rfl

theorem readTypeParams_trees {list list' : TypeParamList}
    (hlist : σ.typeParamList list' = σ.typeParamList list) (ts : List TokenTree) :
    (Head.readTypeParams list' (ts.map σ.tree)).map (Prod.map (List.map σ.typeParam) id) =
      (Head.readTypeParams list ts).map
        (Prod.map (List.map σ.typeParam) (List.map σ.tree)) := by
  induction ts generalizing list list' with
  | nil =>
      obtain ⟨hparams, -, hdepth⟩ := TypeParamList.mk.inj hlist
      simp only [List.map_nil, Head.readTypeParams, TypeParamList.isClosed, hdepth]
      by_cases hclosed : list.depth ≤ 0 <;> simp [hclosed, hparams]
  | cons t ts ih =>
      obtain ⟨hparams, -, hdepth⟩ := TypeParamList.mk.inj hlist
      rw [List.map_cons, Head.readTypeParams, Head.readTypeParams, TypeParamList.isClosed,
        TypeParamList.isClosed, hdepth]
      split
      · simp [hparams]
      · rw [value_tree]
        exact ih (typeParamList_read σ hlist t.value)

theorem readTypeParamsAfter_trees (params : List TypeRef) (ts : List TokenTree) :
    (Head.readTypeParamsAfter params (ts.map σ.tree)).map (Prod.map (List.map σ.typeParam) id) =
      (Head.readTypeParamsAfter params ts).map
        (Prod.map (List.map σ.typeParam) (List.map σ.tree)) := by
  cases ts with
  | nil => rfl
  | cons t ts =>
      rw [List.map_cons, Head.readTypeParamsAfter, Head.readTypeParamsAfter, value_tree,
        isOperator_token]
      split
      · exact readTypeParams_trees σ rfl ts
      · rfl

theorem dropParens_trees (kind : DeclarationKind) (ts : List TokenTree) :
    Head.dropParens kind (ts.map σ.tree) = (Head.dropParens kind ts).map σ.tree := by
  cases ts with
  | nil => rfl
  | cons t ts =>
      rw [List.map_cons, Head.dropParens, Head.dropParens, value_tree, isBlock_token]
      split <;> rfl

/-! ## Base types -/

@[simp] theorem isInheritance_token (l : Language) (t : Token) :
    l.isInheritance (σ.token t) = l.isInheritance t := by
  cases l <;> simp [Language.isInheritance]

theorem text_of_isInheritance {l : Language} {t : Token} (h : l.isInheritance t = true) :
    (σ.token t).text = t.text := by
  cases l with
  | csharp =>
      have hkind := Token.kind_of_isOperator h
      exact text_token (by rw [hkind]; rfl) (by rw [hkind]; decide)
  | java => exact text_of_marks h
  | typescript => exact text_of_marks h

theorem isBaseListEnd_token (l : Language) (t : Token) :
    ((σ.token t).kind == .identifier && l.baseListEnd? == some (σ.token t).text) =
      (t.kind == .identifier && l.baseListEnd? == some t.text) := by
  have hend : ∀ w, l.baseListEnd? = some w → ∀ c ∈ w.toList, Text.isBlank c = false := by
    intro w hw
    cases l with
    | csharp => cases hw; exact Text.solid_of_all (by decide +kernel)
    | java => cases hw; exact Text.solid_of_all (by decide +kernel)
    | typescript => cases hw
  cases hl : l.baseListEnd? with
  | none => rfl
  | some w =>
      have hiff := isIdentifier_token (σ := σ) (t := t) (hend w hl)
      have hcomm : ∀ s : String, (some w == some s) = (s == w) := fun s => by
        rw [Bool.eq_iff_iff, beq_iff_eq, beq_iff_eq, Option.some.injEq, eq_comm]
      rw [hcomm, hcomm]
      exact hiff

/-- The text of a block that is a keyword, too, would be kept. -/
theorem text_eq_of_has {t : Token} {l : Language} {role : Capability}
    (hcompound : t.kind.isCompound = true) (h : l.has role t.text = true) :
    (σ.token t).text = t.text := by
  simp only [token, hcompound, if_true, bracket]
  split
  · rename_i c cs hs
    split
    · rename_i hc
      have hno := not_has_bracket l role (s := t.text) (c := c) (by simpa using hc) (by rw [hs]; rfl)
      rw [hno] at h
      cases h
    · rfl
  · rfl

theorem readBases_trees (l : Language) (groups : List Head.BaseGroup) (ts : List TokenTree) :
    (Head.readBases l groups (ts.map σ.tree)).1 = (Head.readBases l groups ts).1 := by
  induction ts generalizing groups with
  | nil => rfl
  | cons t ts ih =>
      have hend := isBaseListEnd_token σ l t.value
      have htype : (t.kind == .identifier || l.has .type (σ.token t.value).text) =
          (t.kind == .identifier || l.has .type t.value.text) := by
        by_cases hid : t.value.kind = .identifier
        · simp [TokenTree.kind, hid]
        · rw [has_token σ l .type t.value hid]
      have hparse : (t.kind == .identifier || l.has .type t.value.text) = true →
          (TypeRef.parse (σ.token t.value).text).toOption =
            (TypeRef.parse t.value.text).toOption := by
        intro h
        by_cases hcompound : t.value.kind.isCompound = true
        · have hid : t.value.kind ≠ .identifier := by
            intro hid
            rw [hid] at hcompound
            cases hcompound
          have htype : l.has .type t.value.text = true := by simpa [TokenTree.kind, hid] using h
          rw [text_eq_of_has σ hcompound htype]
        · exact parse_token σ t.value (Bool.eq_false_iff.2 hcompound)
      rw [List.map_cons, Head.readBases, Head.readBases]
      simp only [kind_tree, text_tree, value_tree, isInheritance_token, isSeparator_token]
      rw [kind_token] at hend
      split
      · rename_i h
        rw [text_of_isInheritance σ h]
        exact ih _
      · split
        · exact ih _
        · rw [hend, htype]
          split
          · rfl
          · split
            · rename_i hnamed
              have hparse := hparse hnamed
              split
              · rfl
              · revert hparse
                rw [TokenTree.text]
                cases TypeRef.parse (σ.token t.value).text <;>
                  cases TypeRef.parse t.value.text <;> intro hparse <;> cases hparse
                · exact ih groups
                · exact ih _
            · rfl

/-! ## In front of the keyword -/

theorem annotationBefore?_trees (l : Language) (t : TokenTree) (before : List TokenTree) :
    (Head.annotationBefore? l (σ.tree t) (before.map σ.tree)).map Prod.snd =
      (Head.annotationBefore? l t before).map (List.map σ.tree ∘ Prod.snd) := by
  unfold Head.annotationBefore?
  cases l.annotationStyle with
  | bracketed =>
      simp only [value_tree, isBlock_token]
      cases t.value.isBlock '[' with
      | false => rfl
      | true =>
          simp only [if_true, annotations_isEmpty]
          split <;> rfl
  | atSign =>
      simp only [value_tree, isBlock_token]
      cases t.value.isBlock '(' with
      | true =>
          rcases before with _ | ⟨name, _ | ⟨mark, rest⟩⟩
          · rfl
          · rfl
          · simp only [if_true, List.map_cons, kind_tree, value_tree, isSeparator_token]
            split <;> rfl
      | false =>
          rcases before with _ | ⟨mark, rest⟩
          · rfl
          · simp only [Bool.false_eq_true, if_false, List.map_cons, kind_tree, value_tree,
              isSeparator_token]
            split <;> rfl

theorem readLead_trees (l : Language) {h h' : Head} (hh : σ.head h' = σ.head h)
    (before : List TokenTree) :
    σ.head (Head.readLead l h' (before.map σ.tree)) = σ.head (Head.readLead l h before) := by
  fun_induction Head.readLead l h before generalizing h' with
  | case1 h => simpa [Head.readLead] using hh
  | case2 h t before hmodifier ih =>
      rw [List.map_cons, Head.readLead, value_tree, marks_token, if_pos hmodifier, text_tree,
        text_of_marks hmodifier]
      refine ih ?_
      have hmodifiers : (σ.head h').modifiers = (σ.head h).modifiers := by rw [hh]
      rw [show h'.modifiers = h.modifiers from hmodifiers]
      exact congrArg (fun g : Head => { g with modifiers := t.text :: h.modifiers }) hh
  | case3 h t before hmodifier hcomment ih =>
      have hkind : t.value.kind = .comment := by simpa using hcomment
      rw [List.map_cons, Head.readLead, value_tree, marks_token, if_neg hmodifier, kind_tree,
        if_pos hcomment, text_tree, text_token (by rw [hkind]; rfl) (by rw [hkind]; decide)]
      refine ih ?_
      have hcomments : (σ.head h').comments = (σ.head h).comments := by rw [hh]
      rw [show h'.comments = h.comments from hcomments]
      exact congrArg (fun g : Head => { g with comments := Text.commentText t.text :: h.comments }) hh
  | case4 h t before hmodifier hcomment found rest hfound ih =>
      have hbefore := annotationBefore?_trees σ l t before
      rw [hfound] at hbefore
      obtain ⟨⟨found', rest'⟩, hfound', hrest⟩ := Option.map_eq_some_iff.1 hbefore
      obtain rfl : rest' = rest.map σ.tree := hrest
      rw [List.map_cons, Head.readLead, value_tree, marks_token, if_neg hmodifier, kind_tree,
        if_neg hcomment]
      split
      · rename_i found'' rest'' hfound''
        cases hfound''.symm.trans hfound'
        exact ih hh
      · rename_i hnone
        cases hnone.symm.trans hfound'
  | case5 h t before hmodifier hcomment hnone =>
      have hbefore := annotationBefore?_trees σ l t before
      rw [hnone, Option.map_none, Option.map_eq_none_iff] at hbefore
      rw [List.map_cons, Head.readLead, value_tree, marks_token, if_neg hmodifier, kind_tree,
        if_neg hcomment]
      split
      · rename_i hsome
        cases hsome.symm.trans hbefore
      · exact hh

/-! ## Heads -/

theorem filter_trees (ts : List TokenTree) (p : TokenKind → Bool) :
    (ts.map σ.tree).filter (p ·.kind) = (ts.filter (p ·.kind)).map σ.tree := by
  rw [List.filter_map]
  congr 1
  exact List.filter_congr fun t _ => by rw [Function.comp, kind_tree]

theorem readAt_trees (l : Language) (kind : DeclarationKind) {keyword : TokenTree}
    (hkeyword : (σ.tree keyword).text = keyword.text) (between before : List TokenTree) :
    (Head.readAt l kind (σ.tree keyword) (between.map σ.tree) (before.map σ.tree)).1.map σ.head =
      (Head.readAt l kind keyword between before).1.map σ.head := by
  have hfilter := filter_trees σ between (· != .comment)
  unfold Head.readAt
  rw [hfilter]
  generalize between.filter (fun t => t.kind != .comment) = ts
  rcases ts with _ | ⟨t, rest⟩
  · rfl
  · rw [List.map_cons]
    dsimp only
    have hname := readName_tree σ kind t
    revert hname
    rcases Head.readName kind t with ⟨_ | ⟨name, params⟩, malformed⟩ <;>
      rcases Head.readName kind (σ.tree t) with ⟨_ | ⟨name', params'⟩, malformed'⟩ <;>
      intro hname
    · rfl
    · cases hname
    · cases hname
    · obtain ⟨hnames, hsame⟩ := Prod.mk.inj (Option.some.inj hname)
      obtain rfl : params' = params := hsame
      dsimp only
      have hparams := readTypeParamsAfter_trees σ params' rest
      revert hparams
      rcases Head.readTypeParamsAfter params' rest with _ | ⟨typeParams, behind⟩ <;>
        rcases Head.readTypeParamsAfter params' (rest.map σ.tree) with _ | ⟨typeParams', behind'⟩ <;>
        intro hparams
      · rfl
      · cases hparams
      · cases hparams
      · obtain ⟨htypeParams, hbehind⟩ := Prod.mk.inj (Option.some.inj hparams)
        obtain rfl : behind' = behind.map σ.tree := hbehind
        dsimp only at htypeParams ⊢
        have hbases := readBases_trees σ l [] (Head.dropParens kind behind)
        rw [← dropParens_trees] at hbases
        revert hbases
        rcases Head.readBases l [] (Head.dropParens kind behind) with ⟨_ | groups, later⟩ <;>
          rcases Head.readBases l [] (Head.dropParens kind (behind.map σ.tree)) with
            ⟨_ | groups', later'⟩ <;>
          intro hbases <;> cases hbases
        · rfl
        · rw [hkeyword]
          dsimp only
          refine congrArg some (readLead_trees σ l ?_ before)
          simp only [head, hnames, htypeParams]

/-- The head in front of a body is the same. -/
theorem search_trees (l : Language) (between before : List TokenTree) :
    (Head.search l (between.map σ.tree) (before.map σ.tree)).1.map σ.head =
      (Head.search l between before).1.map σ.head := by
  induction before generalizing between with
  | nil => rfl
  | cons t before ih =>
      have hbarrier : Head.isBarrier (σ.token t.value) = Head.isBarrier t.value := by
        rw [Head.isBarrier, Head.isBarrier, isSeparator_token, isBlock_token]
      have hkind : Head.kind? l (σ.token t.value) = Head.kind? l t.value := by
        rw [Head.kind?, Head.kind?, marks_token]
        split
        · rename_i h
          rw [text_of_marks h]
        · rfl
      rw [List.map_cons, Head.search, Head.search, value_tree, hbarrier, hkind]
      split
      · rfl
      · split
        · exact ih (t :: between)
        · rename_i kind hsome
          have htext : (σ.tree t).text = t.text := by
            rw [text_tree]
            refine text_of_marks (l := l) (r := .block) ?_
            rw [Head.kind?] at hsome
            split at hsome
            · assumption
            · cases hsome
          have hread := readAt_trees σ l kind htext between before
          revert hread
          rcases Head.readAt l kind t between before with ⟨_ | found, malformed⟩ <;>
            rcases Head.readAt l kind (σ.tree t) (between.map σ.tree) (before.map σ.tree) with
              ⟨_ | found', malformed'⟩ <;>
            intro hread
          · exact ih (t :: between)
          · cases hread
          · cases hread
          · exact hread

end Spelling

end Outline

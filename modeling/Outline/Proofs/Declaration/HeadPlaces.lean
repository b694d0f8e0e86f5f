import Outline.Proofs.Declaration.HeadReports
import Outline.Proofs.Declaration.Naming

/-!
# The tokens of a head

A head reads its name from the first token behind the keyword, and its base types from tokens that
spell one.  So it reads neither from a token that is reported.

* `Head.Attempt.namePlace?`, `Head.Attempt.basePlaces` — the tokens of the name and the base types.
* `Head.Attempt.exists_name`, `Head.Attempt.exists_base` — what is read from them.
* `Head.spared_of_reported` — they are not reported.
-/

namespace Outline

namespace Head

variable {l : Language}

/-! ## What a head is read from -/

/-- Whether a token among the base types is one. -/
def isBase (l : Language) (t : TokenTree) : Bool :=
  (t.kind == .identifier || l.has .type t.text) && (TypeRef.parse t.text).toOption.isSome

/-- The place of the name. -/
def Attempt.namePlace? (a : Attempt) : Option Nat := a.tokens.head?.map (·.2)

/-- The places of the base types. -/
def Attempt.basePlaces (l : Language) (a : Attempt) : List Nat :=
  (a.baseTokens.filter fun x => isBase l x.1).map (·.2)

theorem mem_addBase {type : TypeRef} {groups : List BaseGroup} {g : BaseGroup}
    (hg : g ∈ addBase type groups) {t : TypeRef} (ht : t ∈ g.2) :
    t = type ∨ ∃ g' ∈ groups, t ∈ g'.2 := by
  induction groups with
  | nil => cases hg
  | cons h groups ih =>
      cases groups with
      | nil =>
          obtain ⟨mark, types⟩ := h
          rw [addBase, List.mem_singleton] at hg
          rw [hg, List.mem_append, List.mem_singleton] at ht
          exact ht.symm.imp id fun ht => ⟨_, List.mem_cons_self, ht⟩
      | cons h' groups =>
          rw [addBase] at hg
          · rcases List.mem_cons.1 hg with rfl | hg
            · exact .inr ⟨g, List.mem_cons_self, ht⟩
            · exact (ih hg).imp id fun ⟨g', hg', ht⟩ => ⟨g', List.mem_cons_of_mem _ hg', ht⟩
          · simp

/-- A base type is read from a token that spells it. -/
theorem exists_of_readBases {groups found : List BaseGroup} {ts : List TokenTree}
    (h : (readBases l groups ts).1 = some found) {g : BaseGroup} (hg : g ∈ found) {type : TypeRef}
    (htype : type ∈ g.2) : (∃ g ∈ groups, type ∈ g.2) ∨
      ∃ t ∈ ts, isBase l t = true ∧ TypeRef.parse t.text = .ok type := by
  induction ts generalizing groups with
  | nil =>
      cases h
      exact .inl ⟨g, hg, htype⟩
  | cons t ts ih =>
      have hlater : ∀ groups', (readBases l groups' ts).1 = some found →
          (∀ g ∈ groups', ∀ type ∈ g.2, (∃ g ∈ groups, type ∈ g.2) ∨
            isBase l t = true ∧ TypeRef.parse t.text = .ok type) →
          (∃ g ∈ groups, type ∈ g.2) ∨
            ∃ t' ∈ t :: ts, isBase l t' = true ∧ TypeRef.parse t'.text = .ok type := by
        intro groups' h hgroups'
        rcases ih h with ⟨g', hg', htype⟩ | ⟨t', ht', hbase⟩
        · exact (hgroups' g' hg' type htype).imp id fun h => ⟨t, List.mem_cons_self, h⟩
        · exact .inr ⟨t', List.mem_cons_of_mem _ ht', hbase⟩
      rw [readBases] at h
      split_ifs at h with _ _ _ hname
      · refine hlater _ h fun g hg type htype => .inl ?_
        rcases List.mem_append.1 hg with hg | hg
        · exact ⟨g, hg, htype⟩
        · rw [List.mem_singleton.1 hg] at htype
          cases htype
      · exact hlater _ h fun g hg type htype => .inl ⟨g, hg, htype⟩
      · cases h
        exact .inl ⟨g, hg, htype⟩
      · cases hparse : TypeRef.parse t.text with
        | ok base =>
            rw [hparse] at h
            refine hlater _ h fun g hg type htype => ?_
            rcases mem_addBase hg htype with rfl | hold
            · refine .inr ⟨?_, hparse⟩
              rw [isBase, hname, hparse]
              rfl
            · exact .inl hold
        | error e =>
            rw [hparse] at h
            exact hlater _ h fun g hg type htype => .inl ⟨g, hg, htype⟩

theorem mem_of_mem_splitByMark {kind : DeclarationKind} {groups : List BaseGroup}
    {type : TypeRef}
    (h : type ∈ (splitByMark kind groups).1.toList ++ (splitByMark kind groups).2) :
    ∃ g ∈ groups, type ∈ g.2 := by
  induction groups with
  | nil => cases h
  | cons g groups ih =>
      obtain ⟨mark, types⟩ := g
      have hlater : type ∈ (splitByMark kind groups).1.toList ++ (splitByMark kind groups).2 →
          ∃ g ∈ (mark, types) :: groups, type ∈ g.2 := fun h =>
        (ih h).imp fun g hg => ⟨List.mem_cons_of_mem _ hg.1, hg.2⟩
      have hown : type ∈ types → ∃ g ∈ (mark, types) :: groups, type ∈ g.2 := fun h =>
        ⟨_, List.mem_cons_self, h⟩
      rw [splitByMark] at h
      generalize splitByMark kind groups = split at h hlater
      obtain ⟨extended?, implemented⟩ := split
      dsimp only at h hlater
      split at h
      · cases types with
        | nil =>
            refine hlater ?_
            simpa using h
        | cons first rest =>
            simp only [List.head?_cons, Option.some_or, Option.toList_some, List.tail_cons,
              List.mem_append, List.mem_singleton] at h
            rcases h with h | h | h
            · exact hown (h ▸ List.mem_cons_self)
            · exact hown (List.mem_cons_of_mem _ h)
            · exact hlater (List.mem_append_right _ h)
      · simp only [List.mem_append] at h
        rcases h with h | h | h
        · exact hlater (List.mem_append_left _ h)
        · exact hown h
        · exact hlater (List.mem_append_right _ h)

theorem mem_of_mem_splitByName {kind : DeclarationKind} {keyword : String} {types : List TypeRef}
    {type : TypeRef} (h : type ∈ (splitByName kind keyword types).1.toList ++
      (splitByName kind keyword types).2) : type ∈ types := by
  unfold splitByName at h
  split at h
  · cases h
  · cases h
  · split at h
    · simpa using h
    · exact h
  · exact h

/-- The base types of a head are those of its groups. -/
theorem mem_of_mem_splitBases {kind : DeclarationKind} {keyword : String}
    {groups : List BaseGroup} {type : TypeRef}
    (h : type ∈ (splitBases l kind keyword groups).1.toList ++
      (splitBases l kind keyword groups).2) : ∃ g ∈ groups, type ∈ g.2 := by
  cases l with
  | csharp => exact List.mem_flatMap.1 (mem_of_mem_splitByName h)
  | java => exact mem_of_mem_splitByMark h
  | typescript => exact mem_of_mem_splitByMark h

namespace Attempt

variable {a : Attempt} {head : Head}

/-- A head is read from the first token behind the keyword and from those among the base types. -/
theorem of_read (h : (a.read l).1 = some head) :
    ∃ name rest params groups, a.tokens = name :: rest ∧ head.kind = a.kind ∧
      readName a.kind name.1 = (some (head.name, params), []) ∧
      (readBases l [] (a.baseTokens.map (·.1))).1 = some groups ∧
      (head.extended?, head.implemented) = splitBases l a.kind a.keyword.text groups := by
  rw [read, readAt, ← a.map_fst_tokens] at h
  cases htokens : a.tokens with
  | nil =>
      rw [htokens] at h
      cases h
  | cons name rest =>
      rw [htokens, List.map_cons] at h
      rw [baseTokens, htokens]
      dsimp only at h ⊢
      cases hname : readName a.kind name.1 with
      | mk found? malformed =>
          rw [hname] at h
          cases found? with
          | none => cases h
          | some found =>
              obtain ⟨parts, params⟩ := found
              have hnone : malformed = [] := by
                unfold readName at hname
                split at hname
                · cases hname
                  rfl
                · split at hname
                  · split at hname <;> cases hname
                    rfl
                  · cases hname
                · cases hname
                  rfl
                · cases hname
              subst hnone
              dsimp only at h ⊢
              cases hparams : readTypeParamsAfter params (rest.map (·.1)) with
              | none =>
                  rw [hparams] at h
                  cases h
              | some left =>
                  obtain ⟨typeParams, left⟩ := left
                  rw [hparams] at h
                  dsimp only at h ⊢
                  rw [map_drop_of_suffix ((suffix_dropParens a.kind left).trans
                    (suffix_readTypeParamsAfter hparams))]
                  split at h
                  · cases h
                  · rename_i groups later hbases
                    obtain rfl := Option.some.inj h
                    obtain ⟨modifiers, annotations, comments, hlead⟩ :=
                      readLead_eq l (_ : Head) a.before
                    rw [hlead]
                    exact ⟨name, rest, params, groups, rfl, rfl, hname, by rw [hbases], rfl⟩

/-- The name of a head that heads no namespace is read from the first token behind the keyword. -/
theorem exists_name (h : (a.read l).1 = some head) (hkind : head.kind ≠ .package) :
    ∃ x ∈ a.tokens, a.namePlace? = some x.2 ∧ x.1.kind = .identifier ∧
      ∃ type, TypeRef.parse x.1.text = .ok type ∧ type.parts = head.name := by
  obtain ⟨name, rest, params, -, htokens, hheads, hname, -, -⟩ := of_read h
  rw [hheads] at hkind
  refine ⟨name, htokens ▸ List.mem_cons_self, by rw [namePlace?, htokens]; rfl, ?_⟩
  unfold readName at hname
  split at hname
  · exact absurd ‹_› hkind
  · refine ⟨‹_›, ?_⟩
    split at hname
    · rename_i type hparse
      split at hname
      · simp only [Prod.mk.injEq, Option.some.injEq] at hname
        exact ⟨type, hparse, hname.1.1⟩
      · cases hname
    · cases hname
  · exact absurd ‹_› hkind
  · cases hname

/-- A base type of a head is read from the token at one of the places. -/
theorem exists_base (h : (a.read l).1 = some head) {type : TypeRef}
    (htype : type ∈ head.extended?.toList ++ head.implemented) :
    ∃ x ∈ a.baseTokens, x.2 ∈ a.basePlaces l ∧ TypeRef.parse x.1.text = .ok type := by
  obtain ⟨-, -, -, groups, -, -, -, hbases, hsplit⟩ := of_read h
  obtain ⟨hextended, himplemented⟩ := Prod.mk.inj hsplit
  rw [hextended, himplemented] at htype
  obtain ⟨g, hg, htype⟩ := mem_of_mem_splitBases htype
  obtain ⟨t, ht, hbase, hparse⟩ :=
    (exists_of_readBases hbases hg htype).resolve_left fun ⟨_, h, _⟩ => List.not_mem_nil h
  obtain ⟨x, hx, rfl⟩ := List.mem_map.1 ht
  exact ⟨x, hx, List.mem_map.2 ⟨x, List.mem_filter.2 ⟨hx, hbase⟩, rfl⟩, hparse⟩

/-- No word of the language begins with a parenthesis. -/
theorem head?_of_has {role : Capability} {w : String} (h : l.has role w = true) :
    w.toList.head? ≠ some '(' := by
  have hword : (l.keywords.all fun entry => entry.1.toList.head? != some '(') = true := by
    cases l <;> decide +kernel
  rw [Language.has, KeywordTable.has, KeywordTable.capabilities?] at h
  obtain ⟨roles, hlookup, -⟩ := (Option.any_eq_true _ _).1 h
  have hmem : (w, roles) ∈ l.keywords := by
    obtain ⟨before, after, heq, -⟩ := List.lookup_eq_some_iff.1 hlookup
    rw [heq]
    exact List.mem_append_right _ List.mem_cons_self
  exact bne_iff_ne.1 (List.all_eq_true.1 hword _ hmem)

/-- A token that spells no type is at none of the places. -/
theorem not_mem_basePlaces (hkeyword : a.keyword.kind = .keyword) {rest : List TokenTree}
    {p : Nat} {t : TokenTree} (ht : (a.run ++ rest)[p]? = some t)
    (hnone : t.value.IsMalformed ∨ t.value.isBlock '(' = true) : p ∉ a.basePlaces l := by
  intro hp
  obtain ⟨x, hx, rfl⟩ := List.mem_map.1 hp
  obtain ⟨hx, hbase⟩ := List.mem_filter.1 hx
  obtain ⟨name, tokens, htokens, hmem⟩ := mem_of_mem_baseTokens hx
  have hrun := mem_run hkeyword (htokens ▸ List.mem_cons_of_mem name hmem) rest
  obtain rfl := Option.some.inj (ht.symm.trans hrun)
  obtain ⟨hword, hspelled⟩ := Bool.and_eq_true_iff.1 hbase
  rcases hnone with ⟨-, e, hparse⟩ | hblock
  · rw [show TypeRef.parse x.1.text = .error e from hparse] at hspelled
    cases hspelled
  · obtain ⟨hkind, htext⟩ := Token.isBlock_iff.1 hblock
    rcases Bool.or_eq_true_iff.1 hword with h | h
    · rw [show x.1.kind = .block from hkind] at h
      cases h
    · exact head?_of_has h htext

/-- A token that spells no type is that of a name only in front of the body of a namespace. -/
theorem ne_namePlace? (hkeyword : a.keyword.kind = .keyword) (h : (a.read l).1 = some head)
    {rest : List TokenTree} {p : Nat} {t : TokenTree} (ht : (a.run ++ rest)[p]? = some t)
    (hnone : t.value.IsMalformed ∨ t.value.isBlock '(' = true) (hkind : head.kind ≠ .package) :
    a.namePlace? ≠ some p := by
  obtain ⟨x, hx, hplace, hidentifier, type, hparse, -⟩ := exists_name h hkind
  rw [hplace]
  intro hp
  obtain rfl := Option.some.inj hp
  obtain rfl := Option.some.inj (ht.symm.trans (mem_run hkeyword hx rest))
  rcases hnone with ⟨-, e, herror⟩ | hblock
  · rw [show TypeRef.parse x.1.text = .error e from herror] at hparse
    cases hparse
  · rw [show x.1.kind = .block from Token.kind_of_isBlock hblock] at hidentifier
    cases hidentifier

end Attempt

/-- What a search reports stands behind the keyword of the head that it finds, and the head reads
neither its name nor a base type from it. -/
theorem spared_of_reported {before : List TokenTree} {r : Report} (hr : r ∈ reports l before)
    {a : Attempt} (ha : found? l before = some a) :
    a.before.length < r.place ∧ a.namePlace? ≠ some r.place ∧ r.place ∉ a.basePlaces l := by
  obtain ⟨a', ha', hr⟩ := List.mem_flatMap.1 hr
  obtain ⟨hrun, hkeyword, -⟩ := of_mem_attempts (List.mem_of_find?_eq_some ha)
  obtain ⟨hrun', hkeyword', -⟩ := of_mem_attempts ha'
  obtain ⟨front, t, back, htokens, hof, -⟩ := of_reports hr
  obtain ⟨k, hreport, -, -⟩ := Attempt.exists_of_tokens htokens
  dsimp only at hreport
  have ht := (Attempt.of_tokens hkeyword' htokens []).1
  rw [hrun', ← hrun] at ht
  have hnone := Attempt.not_mem_basePlaces (l := l) hkeyword ht (.inl hof.isMalformed)
  have hsome : (a.read l).1.isSome = true :=
    List.find?_some (p := fun a : Attempt => (a.read l).1.isSome) ha
  obtain ⟨head, hhead⟩ := Option.isSome_iff_exists.1 hsome
  obtain ⟨name, rest, params, -, hname, -, hread, -, -⟩ := Attempt.of_read hhead
  rw [Attempt.namePlace?, hname]
  rcases eq_or_lt_of_found ha ha' with rfl | hlt
  · -- the name is read, so that the report is one of a base type
    have hbase : r ∈ baseReports l [] a'.baseTokens := by
      refine (List.mem_append.1 hr).resolve_left ?_
      rw [Attempt.nameReports, hname]
      dsimp only
      rw [hread]
      exact List.not_mem_nil
    obtain ⟨front, t, back, hbases, -, -⟩ := of_baseReports hbase
    have hmem : (t, r.place) ∈ a'.baseTokens := by rw [hbases]; simp
    have hne := Attempt.ne_name hname ((Attempt.suffix_baseTokens hname).subset hmem)
    exact ⟨by omega, fun h => hne (Option.some.inj h), hnone⟩
  · -- the keyword of the other attempt stands between the name and the report
    have hat : a.run[a'.before.length]? = some a'.keyword := by
      rw [hrun, ← hrun', Attempt.run, List.getElem?_append_right (by simp), List.length_reverse,
        Nat.sub_self]
      rfl
    rw [Attempt.run, List.getElem?_append_right (by rw [List.length_reverse]; omega),
      List.length_reverse, show a'.before.length - a.before.length =
        a'.before.length - a.before.length - 1 + 1 by omega, List.getElem?_cons_succ] at hat
    have hle := Attempt.name_lt hname hat (by rw [hkeyword']; decide)
    refine ⟨by omega, fun h => ?_, hnone⟩
    have hplace : name.2 = r.place := Option.some.inj h
    omega

end Head

end Outline

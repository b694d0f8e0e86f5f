import Outline.Proofs.Declaration.Sites
import Outline.Proofs.Member.ReportedTokens

/-!
# Reports of heads

The search for a head tries one keyword after another, from the body backwards, up to the first one
that heads a declaration.  It notes the malformed types of all attempts.

* `Head.attempts` — the keywords that are tried.
* `Head.search_eq` — what is found and noted is what the attempts find and note.
* `Head.malformed_search_eq` — the reports of the attempts tell all malformed types.
* `Head.exists_of_mem_reports` — the tokens that are reported, and what stands in front of them.
-/

namespace Outline

/-- The elements of a list with their places, of which some are left out: what stands in front of
one of them is what stands in front of it in the list. -/
theorem exists_of_filter_zipIdx {α : Type} {f : α → Bool} {xs : List α} {n : Nat}
    {front back : List (α × Nat)} {x : α × Nat}
    (h : (xs.zipIdx n).filter (fun y => f y.1) = front ++ x :: back) :
    ∃ k, x.2 = n + k ∧ xs[k]? = some x.1 ∧ (xs.take k).filter f = front.map (·.1) := by
  induction xs generalizing n front with
  | nil => simp at h
  | cons y ys ih =>
      rw [List.zipIdx_cons] at h
      by_cases hy : f y = true
      · rw [List.filter_cons_of_pos (by exact hy)] at h
        cases front with
        | nil =>
            obtain ⟨rfl, -⟩ := List.cons.inj h
            exact ⟨0, rfl, rfl, rfl⟩
        | cons z front =>
            obtain ⟨rfl, hrest⟩ := List.cons.inj h
            obtain ⟨k, hplace, helement, htake⟩ := ih hrest
            refine ⟨k + 1, by omega, helement, ?_⟩
            rw [List.take_succ_cons, List.filter_cons_of_pos hy, htake]
            rfl
      · rw [List.filter_cons_of_neg (by exact hy)] at h
        obtain ⟨k, hplace, helement, htake⟩ := ih h
        refine ⟨k + 1, by omega, helement, ?_⟩
        rw [List.take_succ_cons, List.filter_cons_of_neg hy, htake]

/-- The end of a list is the end of the list of its images. -/
theorem map_drop_of_suffix {α β : Type} {f : α → β} {xs : List α} {ys : List β}
    (h : ys <:+ xs.map f) : (xs.drop (xs.length - ys.length)).map f = ys := by
  rw [List.map_drop]
  have heq := List.suffix_iff_eq_drop.1 h
  rw [List.length_map] at heq
  exact heq.symm

namespace Head

/-! ## Attempts -/

/-- A malformed type that is noted at a token. -/
structure Report where
  /-- The place of the token in the run. -/
  place : Nat
  /-- The malformed type. -/
  malformed : MalformedType

/-- What the reader of base types reports, where those in `groups` come before. -/
def baseReports (l : Language) (groups : List BaseGroup) : List (TokenTree × Nat) → List Report
  | [] => []
  | (t, p) :: ts =>
    if l.isInheritance t.value then baseReports l (groups ++ [(t.text, [])]) ts
    else if t.value.isSeparator "," && !groups.isEmpty then baseReports l groups ts
    else if t.kind == .identifier && l.baseListEnd? == some t.text then []
    else if t.kind == .identifier || l.has .type t.text then
      if groups.isEmpty then []
      else match TypeRef.parse t.text with
        | .ok type => baseReports l (addBase type groups) ts
        | .error e => ⟨p, t.text, e⟩ :: baseReports l groups ts
    else []

theorem malformed_readBases_eq (l : Language) (groups : List BaseGroup)
    (ts : List (TokenTree × Nat)) :
    (readBases l groups (ts.map (·.1))).2 = (baseReports l groups ts).map (·.malformed) := by
  induction ts generalizing groups with
  | nil => rfl
  | cons x ts ih =>
      obtain ⟨t, p⟩ := x
      rw [List.map_cons, readBases, baseReports]
      dsimp only
      split_ifs
      · exact ih _
      · exact ih _
      · rfl
      · rfl
      · cases TypeRef.parse t.text with
        | ok type => exact ih _
        | error e =>
            dsimp only
            rw [List.map_cons, ← ih]
      · rfl

/-- A keyword in front of a body, where the run of siblings is read forwards behind it and
backwards in front of it. -/
structure Attempt where
  /-- What the keyword declares. -/
  kind : DeclarationKind
  /-- The keyword. -/
  keyword : TokenTree
  /-- The tokens between the keyword and the body. -/
  between : List TokenTree
  /-- The tokens before the keyword, the last one first. -/
  before : List TokenTree

namespace Attempt

variable {l : Language} {a : Attempt}

/-- What is read at the keyword. -/
def read (l : Language) (a : Attempt) : Noted Head :=
  readAt l a.kind a.keyword a.between a.before

/-- The run up to the body. -/
def run (a : Attempt) : List TokenTree := a.before.reverse ++ a.keyword :: a.between

/-- The tokens behind the keyword that are no comments, with their places in the run. -/
def tokens (a : Attempt) : List (TokenTree × Nat) :=
  (a.between.zipIdx (a.before.length + 1)).filter fun x => x.1.kind != .comment

/-- The tokens behind the name, the list of type parameters and the parameters. -/
def baseTokens (a : Attempt) : List (TokenTree × Nat) :=
  match a.tokens with
  | [] => []
  | name :: rest =>
    match readName a.kind name.1 with
    | (none, _) => []
    | (some (_, params), _) =>
      match readTypeParamsAfter params (rest.map (·.1)) with
      | none => []
      | some (_, left) => rest.drop (rest.length - (dropParens a.kind left).length)

/-- What the reader of the name reports. -/
def nameReports (a : Attempt) : List Report :=
  match a.tokens with
  | [] => []
  | name :: _ => (readName a.kind name.1).2.map (⟨name.2, ·⟩)

/-- What is reported at the keyword. -/
def reports (l : Language) (a : Attempt) : List Report :=
  a.nameReports ++ baseReports l [] a.baseTokens

theorem map_fst_tokens (a : Attempt) :
    a.tokens.map (·.1) = a.between.filter (·.kind != .comment) := by
  have hfilter := List.filter_map (l := a.between.zipIdx (a.before.length + 1)) (f := Prod.fst)
    (p := fun t : TokenTree => t.kind != .comment)
  rw [List.zipIdx_map_fst] at hfilter
  exact hfilter.symm

theorem suffix_readTypeParams {list : TypeParamList} {typeParams : List TypeRef}
    {ts rest : List TokenTree} (h : readTypeParams list ts = some (typeParams, rest)) :
    rest <:+ ts := by
  induction ts generalizing list with
  | nil =>
      rw [readTypeParams] at h
      split at h
      · cases h
        exact List.suffix_refl _
      · cases h
  | cons t ts ih =>
      rw [readTypeParams] at h
      split at h
      · cases h
        exact List.suffix_refl _
      · exact (ih h).trans (List.suffix_cons t ts)

theorem suffix_readTypeParamsAfter {params typeParams : List TypeRef} {ts rest : List TokenTree}
    (h : readTypeParamsAfter params ts = some (typeParams, rest)) : rest <:+ ts := by
  unfold readTypeParamsAfter at h
  split at h
  · split at h
    · exact (suffix_readTypeParams h).trans (List.suffix_cons _ _)
    · cases h
      exact List.suffix_refl _
  · cases h
    exact List.suffix_refl _

theorem suffix_dropParens (kind : DeclarationKind) (ts : List TokenTree) :
    dropParens kind ts <:+ ts := by
  unfold dropParens
  split
  · split
    · exact List.suffix_cons _ _
    · exact List.suffix_refl _
  · exact List.suffix_refl _

/-- What is noted at the keyword is what is reported. -/
theorem malformed_read (l : Language) (a : Attempt) :
    (a.read l).2 = (a.reports l).map (·.malformed) := by
  have hname (place : Nat) (malformed : List MalformedType) :
      (malformed.map fun m => (⟨place, m⟩ : Report)).map (·.malformed) = malformed := by
    rw [List.map_map]
    exact List.map_id _
  rw [read, readAt, ← a.map_fst_tokens, reports, nameReports, baseTokens]
  cases a.tokens with
  | nil => rfl
  | cons name rest =>
      rw [List.map_append, hname, List.map_cons]
      dsimp only
      obtain ⟨_ | ⟨parts, params⟩, malformed⟩ := readName a.kind name.1
      · exact (List.append_nil _).symm
      · dsimp only
        cases hparams : readTypeParamsAfter params (rest.map (·.1)) with
        | none => exact (List.append_nil _).symm
        | some found =>
            obtain ⟨typeParams, left⟩ := found
            have hsuffix := (suffix_dropParens a.kind left).trans
              (suffix_readTypeParamsAfter hparams)
            have hbases := malformed_readBases_eq l []
              (rest.drop (rest.length - (dropParens a.kind left).length))
            rw [map_drop_of_suffix hsuffix] at hbases
            dsimp only
            rw [← hbases]
            obtain ⟨_ | groups, later⟩ := readBases l [] (dropParens a.kind left)
            · rfl
            · rfl

end Attempt

/-- The keywords that a search tries, the one nearest to the body first. -/
def attempts (l : Language) (between : List TokenTree) : List TokenTree → List Attempt
  | [] => []
  | t :: before =>
    if isBarrier t.value then []
    else match kind? l t.value with
      | none => attempts l (t :: between) before
      | some kind =>
        ⟨kind, t, between, before⟩ ::
          if (readAt l kind t between before).1.isSome then []
          else attempts l (t :: between) before

/-- What a search reports. -/
def reports (l : Language) (before : List TokenTree) : List Report :=
  (attempts l [] before).flatMap (·.reports l)

/-- The attempt at which a search finds a head. -/
def found? (l : Language) (before : List TokenTree) : Option Attempt :=
  (attempts l [] before).find? fun a => (a.read l).1.isSome

/-- A search finds and notes what its attempts find and note. -/
theorem search_eq (l : Language) (between before : List TokenTree) :
    search l between before =
      (((attempts l between before).find? fun a => (a.read l).1.isSome).bind fun a => (a.read l).1,
        (attempts l between before).flatMap fun a => (a.read l).2) := by
  induction before generalizing between with
  | nil => rfl
  | cons t before ih =>
      rw [search, attempts]
      split
      · rfl
      · cases hkind : kind? l t.value with
        | none => exact ih _
        | some kind =>
            have hread : (Attempt.mk kind t between before).read l =
                readAt l kind t between before := rfl
            dsimp only
            rw [List.find?_cons, List.flatMap_cons, hread]
            cases hat : readAt l kind t between before with
            | mk head? malformed =>
                cases head? with
                | none =>
                    rw [ih]
                    rfl
                | some head => simp [hread, hat]

/-- The reports of a search tell all malformed types that it notes, in their order. -/
theorem malformed_search_eq (l : Language) (before : List TokenTree) :
    (search l [] before).2 = (reports l before).map (·.malformed) := by
  rw [search_eq, reports, List.map_flatMap]
  exact List.flatMap_congr fun a _ => a.malformed_read l

/-! ## Where attempts stand -/

variable {l : Language}

/-- An attempt stands in front of the body, at a keyword. -/
theorem of_mem_attempts {between before : List TokenTree} {a : Attempt}
    (ha : a ∈ attempts l between before) :
    a.run = before.reverse ++ between ∧ a.keyword.kind = .keyword ∧
      a.before.length < before.length := by
  induction before generalizing between with
  | nil => cases ha
  | cons t before ih =>
      have hlater : a ∈ attempts l (t :: between) before →
          a.run = (t :: before).reverse ++ between ∧ a.keyword.kind = .keyword ∧
            a.before.length < (t :: before).length := by
        intro ha
        obtain ⟨hrun, hkind, hlength⟩ := ih ha
        exact ⟨by simp [hrun], hkind, Nat.lt_succ_of_lt hlength⟩
      rw [attempts] at ha
      split at ha
      · cases ha
      · cases hkind : kind? l t.value with
        | none =>
            rw [hkind] at ha
            exact hlater ha
        | some kind =>
            rw [hkind] at ha
            rcases List.mem_cons.1 ha with rfl | ha
            · refine ⟨by simp [Attempt.run], ?_, Nat.lt_succ_self _⟩
              rw [kind?] at hkind
              split at hkind
              · exact Language.kind_of_marks ‹_›
              · cases hkind
            · split at ha
              · cases ha
              · exact hlater ha

/-- The attempt that finds a head is the last one, that is, the first one in the run. -/
theorem eq_or_lt_of_found {between before : List TokenTree} {a a' : Attempt}
    (ha : (attempts l between before).find? (fun a => (a.read l).1.isSome) = some a)
    (ha' : a' ∈ attempts l between before) : a' = a ∨ a.before.length < a'.before.length := by
  induction before generalizing between with
  | nil => cases ha'
  | cons t before ih =>
      rw [attempts] at ha ha'
      split at ha'
      · cases ha'
      · rename_i hbarrier
        rw [if_neg hbarrier] at ha
        cases hkind : kind? l t.value with
        | none =>
            rw [hkind] at ha ha'
            exact ih ha ha'
        | some kind =>
            have hread : (Attempt.mk kind t between before).read l =
                readAt l kind t between before := rfl
            rw [hkind] at ha ha'
            dsimp only at ha ha'
            rw [List.find?_cons, hread] at ha
            cases hsome : (readAt l kind t between before).1.isSome with
            | true =>
                rw [hsome] at ha ha'
                cases ha
                exact .inl (List.mem_singleton.1 ha')
            | false =>
                rw [hsome] at ha ha'
                simp only [Bool.false_eq_true, if_false] at ha ha'
                rcases List.mem_cons.1 ha' with rfl | ha'
                · exact .inr (of_mem_attempts (List.mem_of_find?_eq_some ha)).2.2
                · exact ih ha ha'

namespace Attempt

open Extractor (tokenBefore?)

variable {a : Attempt}

theorem exists_of_tokens {front back : List (TokenTree × Nat)} {x : TokenTree × Nat}
    (h : a.tokens = front ++ x :: back) :
    ∃ k, x.2 = a.before.length + 1 + k ∧ a.between[k]? = some x.1 ∧
      (a.between.take k).filter (·.kind != .comment) = front.map (·.1) :=
  exists_of_filter_zipIdx (f := fun t : TokenTree => t.kind != .comment) h

/-- A token behind the keyword, in the run: in front of it stands the one before it, or the
keyword. -/
theorem of_tokens (hkeyword : a.keyword.kind = .keyword) {front back : List (TokenTree × Nat)}
    {x : TokenTree × Nat} (h : a.tokens = front ++ x :: back) (rest : List TokenTree) :
    (a.run ++ rest)[x.2]? = some x.1 ∧
      tokenBefore? (a.run ++ rest) x.2 = (a.keyword :: front.map (·.1)).getLast? := by
  obtain ⟨k, hplace, helement, htake⟩ := exists_of_tokens h
  have hk : k < a.between.length := (List.getElem?_eq_some_iff.1 helement).1
  have hrun : a.run ++ rest = a.before.reverse ++ a.keyword :: (a.between ++ rest) := by
    simp [run]
  have hlength : x.2 = a.before.reverse.length + (k + 1) := by
    rw [List.length_reverse]
    omega
  constructor
  · rw [hrun, hlength, List.getElem?_append_right (by omega), Nat.add_sub_cancel_left,
      List.getElem?_cons_succ, List.getElem?_append_left hk]
    exact helement
  · rw [tokenBefore?, hrun, hlength, List.take_length_add_append, List.take_succ_cons,
      List.take_append_of_le_length hk.le, List.filter_append,
      List.filter_cons_of_pos (by rw [hkeyword]; rfl), htake, List.getLast?_append_cons]

theorem mem_run (hkeyword : a.keyword.kind = .keyword) {x : TokenTree × Nat} (h : x ∈ a.tokens)
    (rest : List TokenTree) : (a.run ++ rest)[x.2]? = some x.1 := by
  obtain ⟨front, back, hsplit⟩ := List.append_of_mem h
  exact (of_tokens hkeyword hsplit rest).1

/-- The name stands in front of every other token behind the keyword. -/
theorem name_lt {name : TokenTree × Nat} {rest : List (TokenTree × Nat)}
    (h : a.tokens = name :: rest) {k : Nat} {t : TokenTree} (ht : a.between[k]? = some t)
    (hkind : t.kind ≠ .comment) : name.2 ≤ a.before.length + 1 + k := by
  obtain ⟨k', hplace, -, htake⟩ := exists_of_tokens (h.trans (List.nil_append _).symm)
  by_contra hlt
  have hk : k < k' := by omega
  have hmem : t ∈ (a.between.take k').filter (·.kind != .comment) :=
    List.mem_filter.2 ⟨List.mem_of_getElem? ((List.getElem?_take_of_lt hk).trans ht),
      bne_iff_ne.2 hkind⟩
  rw [htake] at hmem
  cases hmem

theorem ne_name {name x : TokenTree × Nat} {rest : List (TokenTree × Nat)}
    (h : a.tokens = name :: rest) (hx : x ∈ rest) : name.2 ≠ x.2 := by
  obtain ⟨front, back, rfl⟩ := List.append_of_mem hx
  obtain ⟨k, hplace, -, htake⟩ := exists_of_tokens (h.trans (List.nil_append _).symm)
  obtain ⟨k', hplace', -, htake'⟩ :=
    exists_of_tokens (h.trans (List.cons_append ..).symm)
  intro heq
  obtain rfl : k = k' := by omega
  rw [htake] at htake'
  cases htake'

/-- The tokens among the base types stand behind the name. -/
theorem suffix_baseTokens {name : TokenTree × Nat} {rest : List (TokenTree × Nat)}
    (h : a.tokens = name :: rest) : a.baseTokens <:+ rest := by
  rw [baseTokens, h]
  dsimp only
  split
  · exact List.nil_suffix
  · split
    · exact List.nil_suffix
    · exact List.drop_suffix _ _

theorem mem_of_mem_baseTokens {x : TokenTree × Nat} (hx : x ∈ a.baseTokens) :
    ∃ name rest, a.tokens = name :: rest ∧ x ∈ rest := by
  cases htokens : a.tokens with
  | nil =>
      rw [baseTokens, htokens] at hx
      cases hx
  | cons name rest => exact ⟨name, rest, rfl, (suffix_baseTokens htokens).subset hx⟩

end Attempt

/-! ## What is reported -/

/-- Whether a token can stand among base types in front of another one. -/
def IsListed (l : Language) (t : TokenTree) : Prop :=
  l.isInheritance t.value = true ∨ t.value.isSeparator "," = true ∨ t.kind = .identifier ∨
    l.has .type t.text = true

/-- A base type that is reported is an identifier that spells no type, behind another token among
the base types. -/
theorem of_baseReports {groups : List BaseGroup} {ts : List (TokenTree × Nat)} {r : Report}
    (hr : r ∈ baseReports l groups ts) :
    ∃ front t back, ts = front ++ (t, r.place) :: back ∧ r.malformed.IsOf t.value ∧
      (front = [] ∧ groups ≠ [] ∨ ∃ x, front.getLast? = some x ∧ IsListed l x.1) := by
  induction ts generalizing groups with
  | nil => cases hr
  | cons x ts ih =>
      obtain ⟨t, p⟩ := x
      have hlater : ∀ groups', IsListed l t → r ∈ baseReports l groups' ts →
          ∃ front t' back, (t, p) :: ts = front ++ (t', r.place) :: back ∧
            r.malformed.IsOf t'.value ∧
              (front = [] ∧ groups ≠ [] ∨ ∃ x, front.getLast? = some x ∧ IsListed l x.1) := by
        intro groups' ht hr
        obtain ⟨front, t', back, rfl, hof, hfront⟩ := ih hr
        refine ⟨(t, p) :: front, t', back, rfl, hof, .inr ?_⟩
        rcases hfront with ⟨rfl, -⟩ | ⟨x, hx, hlisted⟩
        · exact ⟨(t, p), rfl, ht⟩
        · exact ⟨x, by rw [List.getLast?_cons, hx]; rfl, hlisted⟩
      rw [baseReports] at hr
      split_ifs at hr with hmark hcomma hend hname hgroups
      · exact hlater _ (.inl hmark) hr
      · exact hlater _ (.inr (.inl (Bool.and_eq_true_iff.1 hcomma).1)) hr
      · cases hr
      · cases hr
      · have hlisted : IsListed l t := by
          rcases Bool.or_eq_true_iff.1 hname with h | h
          · exact .inr (.inr (.inl (beq_iff_eq.1 h)))
          · exact .inr (.inr (.inr h))
        cases hparse : TypeRef.parse t.text with
        | ok type =>
            rw [hparse] at hr
            exact hlater _ hlisted hr
        | error e =>
            rw [hparse] at hr
            rcases List.mem_cons.1 hr with rfl | hr
            · have hkind : t.kind = .identifier := by
                rcases Bool.or_eq_true_iff.1 hname with h | h
                · exact beq_iff_eq.1 h
                · obtain ⟨type, htype⟩ := Language.parse_of_has h
                  rw [hparse] at htype
                  cases htype
              exact ⟨[], t, ts, rfl, ⟨hkind, rfl, hparse⟩, .inl ⟨rfl, by simpa using hgroups⟩⟩
            · exact hlater _ hlisted hr
      · cases hr

/-- A token that is reported at a keyword is an identifier that spells no type, behind the keyword
or behind another token among the base types. -/
theorem of_reports {a : Attempt} {r : Report} (hr : r ∈ a.reports l) :
    ∃ front t back, a.tokens = front ++ (t, r.place) :: back ∧ r.malformed.IsOf t.value ∧
      (front = [] ∨ ∃ x, front.getLast? = some x ∧ IsListed l x.1) := by
  rcases List.mem_append.1 hr with hr | hr
  · rw [Attempt.nameReports] at hr
    cases htokens : a.tokens with
    | nil =>
        rw [htokens] at hr
        cases hr
    | cons name rest =>
        obtain ⟨t, p⟩ := name
        rw [htokens] at hr
        obtain ⟨x, hx, rfl⟩ := List.mem_map.1 hr
        refine ⟨[], t, rest, rfl, ?_, .inl rfl⟩
        unfold readName at hx
        split at hx
        · cases hx
        · split at hx
          · split at hx <;> cases hx
          · obtain rfl := List.mem_singleton.1 hx
            exact ⟨‹_›, rfl, ‹_›⟩
        · cases hx
        · cases hx
  · obtain ⟨front, t, back, hbases, hof, hfront⟩ := of_baseReports hr
    obtain ⟨x, hlast, hlisted⟩ := hfront.resolve_left fun h => h.2 rfl
    have hmem : (t, r.place) ∈ a.baseTokens := by rw [hbases]; simp
    obtain ⟨name, rest, htokens, -⟩ := Attempt.mem_of_mem_baseTokens hmem
    obtain ⟨pre, hpre⟩ := Attempt.suffix_baseTokens htokens
    refine ⟨name :: pre ++ front, t, back, ?_, hof, .inr ⟨x, ?_, hlisted⟩⟩
    · rw [htokens, ← hpre, hbases]
      simp
    · rw [List.getLast?_append, hlast]
      rfl

/-- A report of a search is one of a token at its place, where a keyword or a token among the base
types stands in front of it. -/
theorem exists_of_mem_reports {before : List TokenTree} {r : Report} (hr : r ∈ reports l before)
    (rest : List TokenTree) :
    ∃ t, (before.reverse ++ rest)[r.place]? = some t ∧ r.malformed.IsOf t.value ∧
      ∃ v, Extractor.tokenBefore? (before.reverse ++ rest) r.place = some v ∧
        (v.kind = .keyword ∨ IsListed l v) := by
  obtain ⟨a, ha, hr⟩ := List.mem_flatMap.1 hr
  obtain ⟨hrun, hkeyword, -⟩ := of_mem_attempts ha
  rw [List.append_nil] at hrun
  obtain ⟨front, t, back, htokens, hof, hfront⟩ := of_reports hr
  obtain ⟨ht, hbefore⟩ := Attempt.of_tokens hkeyword htokens rest
  rw [hrun] at ht hbefore
  rcases hfront with rfl | ⟨x, hx, hlisted⟩
  · exact ⟨t, ht, hof, a.keyword, hbefore, .inl hkeyword⟩
  · refine ⟨t, ht, hof, x.1, ?_, .inr hlisted⟩
    rw [hbefore, List.getLast?_cons, List.getLast?_map, hx]
    rfl

/-- Where the name comes first, no mark behind which a machine awaits a token stands in front of a
token that is reported. -/
theorem not_mem_awaiting (hl : l.memberOrder = .nameFirst) {t : TokenTree}
    (h : t.kind = .keyword ∨ IsListed l t) : (t.kind, t.text) ∉ Extractor.awaiting := by
  intro hmem
  have hkind : t.kind = .separator ∨ t.kind = .operator := by
    simp only [Extractor.awaiting, List.mem_cons, List.not_mem_nil, or_false, Prod.mk.injEq] at hmem
    tauto
  have htext : t.text ∈ ["@", ":", "|", "=>"] := List.mem_map_of_mem (f := Prod.snd) hmem
  have hnone : ∀ w ∈ ["@", ":", "|", "=>"], l.has .type w = false := by
    cases l with
    | csharp => cases hl
    | java => cases hl
    | typescript => decide +kernel
  rcases h with h | hmark | hcomma | h | htype
  · simp [h] at hkind
  · have hkeyword : t.value.kind = .keyword := by
      cases l with
      | csharp => cases hl
      | java => cases hl
      | typescript => exact Language.kind_of_marks hmark
    rw [show t.kind = .keyword from hkeyword] at hkind
    simp at hkind
  · rw [show t.text = "," from (Token.isSeparator_iff.1 hcomma).2] at htext
    exact absurd htext (by decide)
  · simp [h] at hkind
  · rw [hnone _ htext] at htype
    cases htype

end Head

end Outline

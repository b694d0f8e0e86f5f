import Outline.Proofs.Member.Malformed
import Outline.Proofs.Relayout.Matching
import Outline.Unit.Basic

/-!
# Documents without malformed types

The recognizer of identifiers and the reader of types are two readers of the same grammar.  Where
the type comes first, every place that reads a type reads a word that the recognizer has read, so
that a document of such a language holds no malformed type.

* `Dialect.parse_of_scan` — what the recognizer of identifiers reads spells a type.
* `TokenTree.allSpelled_of_read` — every word of a document spells a type.
* `Discovery.malformed_ofDocument` — the search of a document notes no malformed type.
-/

namespace Outline

/-! ## What the recognizer of identifiers reads -/

namespace Dialect

variable {d : Dialect}

theorem tame_identifiers (d : Dialect) : d.identifiers.Tame := by
  unfold identifiers
  cases d.language with
  | csharp => exact CSharp.tame_identifiers d.maxDepth
  | java => exact Java.tame_identifiers d.maxDepth
  | typescript => exact TypeScript.tame_identifiers d.maxDepth

/-- Where the type comes first, no name starts with a number sign. -/
theorem unmarked_identifiers (hd : d.language.memberOrder = .typeFirst) (cs : List Char) :
    d.identifiers.Unmarked cs := by
  apply IdentifierStyle.unmarked_of_starts
  unfold identifiers
  cases hl : d.language with
  | csharp => rfl
  | java => rfl
  | typescript => rw [hl] at hd; cases hd

theorem dot_identifiers (d : Dialect) :
    d.identifiers.starts '.' = false ∧ d.identifiers.continues '.' = false := by
  unfold identifiers
  cases d.language <;> exact ⟨rfl, rfl⟩

theorem maxDepth_identifiers (d : Dialect) : d.identifiers.maxDepth = d.maxDepth := by
  unfold identifiers
  cases d.language <;> rfl

/-- What the recognizer of identifiers reads spells a type, whose brackets nest no deeper than the
dialect allows and whose names are dotted names. -/
theorem parse_of_scan (hd : d.language.memberOrder = .typeFirst) {cs : List Char} {n : Nat}
    (h : (Recognizer.identifier d.identifiers).scan cs = some n) :
    ∃ t, TypeRef.parse (String.ofList (cs.take n)) = .ok t ∧
      d.identifiers.Scanned d.maxDepth t := by
  have hscan : d.identifiers.scan cs = some n := (Option.filter_eq_some_iff.1 h).1
  rw [IdentifierStyle.scan, maxDepth_identifiers] at hscan
  obtain ⟨t, ht⟩ := IdentifierStyle.exists_spells hscan
  exact ⟨t, IdentifierStyle.parse_of_spells d.tame_identifiers ht (unmarked_identifiers hd _),
    IdentifierStyle.scanned_of_spells ht⟩

/-- Among the rules, only the one of identifiers makes words. -/
theorem recognizer_of_word {r : Rule} (hr : r ∈ d.language.rules d.maxDepth) {l : Language}
    {text : String} {kind : TokenKind} (hkind : r.classifier.kind? l text = some kind)
    (hword : kind = .identifier ∨ kind = .keyword) :
    r.recognizer = .identifier d.identifiers := by
  have hother {made : TokenKind} (hmade : made ≠ .identifier ∧ made ≠ .keyword)
      (h : (Classifier.ofKind made).kind? l text = some kind) : False := by
    cases h
    exact hword.elim hmade.1 hmade.2
  unfold identifiers
  cases hl : d.language with
  | csharp =>
      rw [hl] at hr
      simp only [Language.rules, CSharp.rules, List.mem_cons, List.not_mem_nil, or_false] at hr
      rcases hr with rfl | rfl | rfl | rfl | rfl | rfl | rfl | rfl | rfl | rfl | rfl | rfl
      all_goals first
        | rfl
        | exact (hother (by decide) hkind).elim
        | cases hkind
  | java =>
      rw [hl] at hr
      simp only [Language.rules, Java.rules, List.mem_cons, List.not_mem_nil, or_false] at hr
      rcases hr with rfl | rfl | rfl | rfl | rfl | rfl | rfl | rfl | rfl | rfl | rfl
      all_goals first
        | rfl
        | exact (hother (by decide) hkind).elim
        | cases hkind
  | typescript =>
      rw [hl] at hr
      simp only [Language.rules, TypeScript.rules, List.mem_cons, List.not_mem_nil, or_false] at hr
      rcases hr with rfl | rfl | rfl | rfl | rfl | rfl | rfl | rfl | rfl | rfl | rfl
      all_goals first
        | rfl
        | exact (hother (by decide) hkind).elim
        | cases hkind

end Dialect

/-! ## The words of a document -/

namespace TokenTree

variable {d : Dialect}

theorem allSpelled_of_reads (hd : d.language.memberOrder = .typeFirst) {source : Source} {p q : Nat}
    {ts : List TokenTree} (h : Reads d.language d.ruleSet source p q ts) : AllSpelled ts := by
  induction h with
  | nil p => exact fun u hu => absurd hu (by simp)
  | skip _ _ _ _ _ ih => exact ih
  | @leaf p q len c cs classifier kind ts rest hopen found hkind tail ih =>
      refine List.forall_mem_cons.2 ⟨fun hword => ?_, ih⟩
      -- the text of a word is what the recognizer of identifiers has read
      obtain ⟨⟨r, hr, hscan, rfl⟩, -⟩ := RuleSet.match?_reads found
      rw [Dialect.recognizer_of_word hr hkind hword] at hscan
      obtain ⟨t, ht, -⟩ := Dialect.parse_of_scan hd hscan
      exact ⟨t, ht⟩
  | block _ _ _ _ _ _ ihinside ih =>
      rw [AllSpelled, Rose.subtreesAll_cons, Rose.subtrees_node]
      refine List.forall_mem_append.2 ⟨List.forall_mem_cons.2 ⟨?_, ihinside⟩, ih⟩
      rintro (hword | hword) <;> cases hword

theorem allSpelled_of_read (hd : d.language.memberOrder = .typeFirst) {text : String}
    {doc : TokenTree} (h : read d text = .ok doc) : AllSpelled doc.children := by
  obtain ⟨ts, rfl, hts⟩ := reads_of_read h
  exact allSpelled_of_reads hd hts

end TokenTree

/-! ## Heads -/

namespace Head

variable {l : Language}

theorem malformed_readName (kind : DeclarationKind) {t : TokenTree} (ht : t.value.Spelled) :
    (readName kind t).2 = [] := by
  unfold readName
  split
  · rfl
  · rename_i hkind _
    obtain ⟨type, htype⟩ := ht (.inl hkind)
    have hparse : TypeRef.parse t.text = .ok type := htype
    rw [hparse]
    dsimp only
    split <;> rfl
  · rfl
  · rfl

theorem mem_of_readTypeParams {list : TypeParamList} {ts rest : List TokenTree}
    {params : List TypeRef} (h : readTypeParams list ts = some (params, rest)) {t : TokenTree}
    (ht : t ∈ rest) : t ∈ ts := by
  induction ts generalizing list with
  | nil =>
      rw [readTypeParams] at h
      split at h
      · cases h
        exact ht
      · cases h
  | cons u ts ih =>
      rw [readTypeParams] at h
      split at h
      · cases h
        exact ht
      · exact List.mem_cons_of_mem _ (ih h)

theorem mem_of_readTypeParamsAfter {params typeParams : List TypeRef} {ts rest : List TokenTree}
    (h : readTypeParamsAfter params ts = some (typeParams, rest)) {t : TokenTree}
    (ht : t ∈ rest) : t ∈ ts := by
  unfold readTypeParamsAfter at h
  split at h
  · split at h
    · exact List.mem_cons_of_mem _ (mem_of_readTypeParams h ht)
    · cases h
      exact ht
  · cases h
    exact ht

theorem mem_of_mem_dropParens {kind : DeclarationKind} {ts : List TokenTree} {t : TokenTree}
    (h : t ∈ dropParens kind ts) : t ∈ ts := by
  unfold dropParens at h
  split at h
  · split at h
    · exact List.mem_cons_of_mem _ h
    · exact h
  · exact h

theorem malformed_readBases (l : Language) {ts : List TokenTree}
    (hts : ∀ t ∈ ts, t.value.Spelled) (groups : List BaseGroup) :
    (readBases l groups ts).2 = [] := by
  induction ts generalizing groups with
  | nil => rfl
  | cons t ts ih =>
      have ih := ih fun u hu => hts u (List.mem_cons_of_mem _ hu)
      rw [readBases]
      split_ifs with _ _ _ hname _
      · exact ih _
      · exact ih _
      · rfl
      · rfl
      · have hparse : ∃ type, TypeRef.parse t.text = .ok type := by
          rcases Bool.or_eq_true_iff.1 hname with hid | htype
          · exact hts t List.mem_cons_self (.inl (beq_iff_eq.1 hid))
          · exact Language.parse_of_has htype
        obtain ⟨type, htype⟩ := hparse
        rw [htype]
        exact ih _
      · rfl

theorem malformed_readAt (l : Language) (kind : DeclarationKind) (keyword : TokenTree)
    {between : List TokenTree} (hbetween : ∀ t ∈ between, t.value.Spelled)
    (before : List TokenTree) : (readAt l kind keyword between before).2 = [] := by
  unfold readAt
  split
  · rfl
  · rename_i name rest hfilter
    have hspelled : ∀ t ∈ name :: rest, t.value.Spelled := fun t ht =>
      hbetween t (List.mem_of_mem_filter (hfilter ▸ ht))
    have hname := malformed_readName kind (hspelled name List.mem_cons_self)
    split
    · rename_i heq
      rw [heq] at hname
      exact hname
    · rename_i heq
      rw [heq] at hname
      split
      · exact hname
      · rename_i typeParams rest' hparams
        have hrest : ∀ t ∈ dropParens kind rest', t.value.Spelled := fun t ht =>
          hspelled t (List.mem_cons_of_mem _
            (mem_of_readTypeParamsAfter hparams (mem_of_mem_dropParens ht)))
        have hbases := malformed_readBases l hrest []
        split
        · rename_i hgroups
          rw [hgroups] at hbases
          exact List.append_eq_nil_iff.2 ⟨hname, hbases⟩
        · rename_i hgroups
          rw [hgroups] at hbases
          exact List.append_eq_nil_iff.2 ⟨hname, hbases⟩

theorem malformed_search (l : Language) {between before : List TokenTree}
    (hbetween : ∀ t ∈ between, t.value.Spelled) (hbefore : ∀ t ∈ before, t.value.Spelled) :
    (search l between before).2 = [] := by
  induction before generalizing between with
  | nil => rfl
  | cons t before ih =>
      have ih := ih (List.forall_mem_cons.2 ⟨hbefore t List.mem_cons_self, hbetween⟩)
        fun u hu => hbefore u (List.mem_cons_of_mem _ hu)
      rw [search]
      split
      · rfl
      · split
        · exact ih
        · rename_i kind _
          have hat := malformed_readAt l kind t hbetween before
          split
          · rename_i heq
            rw [heq] at hat
            exact hat
          · rename_i heq
            rw [heq] at hat
            exact List.append_eq_nil_iff.2 ⟨hat, ih⟩

end Head

/-! ## Documents -/

namespace Discovery

theorem malformed_append (a b : Discovery) : (a ++ b).malformed = a.malformed ++ b.malformed := rfl

theorem malformed_ofHead {s : Surroundings} (hl : s.language.memberOrder = .typeFirst) (head : Head)
    (fullName : List String) {body : TokenTree} (h : TokenTree.AllSpelled body.children) :
    (ofHead s head fullName body).malformed = [] := by
  unfold ofHead
  dsimp only
  split
  · exact Members.malformed_ofBody hl head.kind h
  · rfl

theorem malformed_ofSiblings {s : Surroundings} (hl : s.language.memberOrder = .typeFirst)
    (scope : List String) {before ts : List TokenTree} (hbefore : ∀ t ∈ before, t.value.Spelled)
    (h : TokenTree.AllSpelled ts) : (ofSiblings s scope before ts).malformed = [] := by
  match ts with
  | [] => rw [ofSiblings]
  | .node token children :: after =>
    have hbehind : ∀ t ∈ .node token children :: before, t.value.Spelled :=
      List.forall_mem_cons.2 ⟨h.of_mem List.mem_cons_self, hbefore⟩
    have hafter := fun scope => malformed_ofSiblings hl scope hbehind h.tail
    have hchildren : TokenTree.AllSpelled children := h.children List.mem_cons_self
    have hinside : ∀ (s : Surroundings), s.language.memberOrder = .typeFirst → ∀ scope,
        (ofSiblings s scope [] children).malformed = [] := fun s hl scope =>
      malformed_ofSiblings hl scope (by simp) hchildren
    have hsearch : (Head.search s.language [] before).2 = [] :=
      Head.malformed_search s.language (by simp) hbefore
    rw [ofSiblings]
    dsimp only
    split
    · split
      · rw [malformed_append, hafter]
        rfl
      · exact hafter scope
    · have hhead : (if token.isBlock '\x7b' then Head.search s.language [] before
          else ((none, []) : Noted Head)).2 = [] := by
        split
        · exact hsearch
        · rfl
      simp only [malformed_append, hhead, hafter, List.append_nil, List.nil_append]
      split
      · rename_i head _
        exact List.append_eq_nil_iff.2
          ⟨malformed_ofHead hl head _ hchildren, hinside (s.body head.kind _) hl _⟩
      · exact hinside s.inside hl scope
termination_by sizeOf ts

/-- The search of a document notes no malformed type. -/
theorem malformed_ofDocument {l : Language} (hl : l.memberOrder = .typeFirst) {document : TokenTree}
    (h : TokenTree.AllSpelled document.children) : (ofDocument l document).malformed = [] :=
  malformed_ofSiblings hl [] (by simp) h

end Discovery

/-! ## The two readers agree -/

/-- In C# and Java the recognizer of identifiers and the reader of types agree.

* Whatever the recognizer reads, anywhere in a text, spells a type.  Its angle brackets nest no
  deeper than the dialect allows, and each name in it that is no wildcard is a dotted name.
* Hence no document holds a malformed type.
* Hence the policy for malformed types does not change the unit of a file. -/
theorem Dialect.types_of_identifiers {d : Dialect}
    (hd : d.language = .csharp ∨ d.language = .java) :
    (∀ r ∈ d.language.rules d.maxDepth, ∀ style, r.recognizer = .identifier style →
      ∀ (text : String) (pos n : Nat), r.recognizer.scan (text.toList.drop pos) = some n →
        ∃ t, TypeRef.parse (String.ofList ((text.toList.drop pos).take n)) = .ok t ∧
          t.nesting ≤ d.maxDepth ∧
          ∀ u ∈ t.occurrences, u.isWildcard = false →
            style.scanDotted u.name.toList = some u.name.toList.length) ∧
      (∀ text doc, TokenTree.read d text = .ok doc →
        (Discovery.ofDocument d.language doc).malformed = []) ∧
      ∀ sourceId text, SourceUnit.read sourceId text d .failFile =
        SourceUnit.read sourceId text d .skipMember := by
  have horder : d.language.memberOrder = .typeFirst := by
    rcases hd with h | h <;> rw [h] <;> rfl
  have hdocument : ∀ text doc, TokenTree.read d text = .ok doc →
      (Discovery.ofDocument d.language doc).malformed = [] := fun text doc h =>
    Discovery.malformed_ofDocument horder (TokenTree.allSpelled_of_read horder h)
  refine ⟨?_, hdocument, ?_⟩
  · intro r hr style hrec text pos n hscan
    have huses := Dialect.uses_of_mem horder hr
    rw [hrec] at hscan huses
    obtain rfl : style = d.identifiers := huses
    obtain ⟨t, ht, hscanned⟩ := Dialect.parse_of_scan horder hscan
    exact ⟨t, ht, hscanned.nesting, hscanned.names⟩
  · intro sourceId text
    unfold SourceUnit.read
    cases hread : TokenTree.read d text with
    | error e => rfl
    | ok doc =>
        have hnone := hdocument text doc hread
        simp only [Except.mapError, bind, Except.bind, hnone]
        rfl

/-- A map with a wildcard in it, whose type starts at place 8 of a class that is read. -/
theorem Dialect.types_of_identifiers_java :
    let text := "class A\x7bMap<String,?> m;\x7d"
    let identifiers := Recognizer.identifier (Java.identifiers 20)
    (Language.java = .csharp ∨ Language.java = .java) ∧
      (⟨identifiers, .keywordOrIdentifier⟩ ∈ Language.java.rules 20 ∧
        identifiers.scan (text.toList.drop 8) = some 13 ∧
        ∃ t, TypeRef.parse "Map<String,?>" = .ok t ∧ t.nesting ≤ 20 ∧
          ∀ u ∈ t.occurrences, u.isWildcard = false →
            (Java.identifiers 20).scanDotted u.name.toList = some u.name.toList.length) ∧
      (∃ doc, TokenTree.read ⟨.java, 20⟩ text = .ok doc ∧
        (Discovery.ofDocument .java doc).malformed = []) ∧
      SourceUnit.read "A.java" text ⟨.java, 20⟩ .failFile =
        SourceUnit.read "A.java" text ⟨.java, 20⟩ .skipMember := by
  intro text identifiers
  have hjava : Language.java = .csharp ∨ Language.java = .java := .inr rfl
  obtain ⟨hscanned, hdocument, hpolicy⟩ := Dialect.types_of_identifiers (d := ⟨.java, 20⟩) hjava
  have hrule : ⟨identifiers, .keywordOrIdentifier⟩ ∈ Language.java.rules 20 := by decide +kernel
  have hscan : identifiers.scan (text.toList.drop 8) = some 13 := by decide +kernel
  have hread : (TokenTree.read ⟨.java, 20⟩ text).toOption.isSome = true := by decide +kernel
  have hword : String.ofList ((text.toList.drop 8).take 13) = "Map<String,?>" := by decide +kernel
  refine ⟨hjava, ⟨hrule, hscan, ?_⟩, ?_, hpolicy "A.java" text⟩
  · have hparse := hscanned _ hrule (Java.identifiers 20) rfl text 8 13 hscan
    rwa [hword] at hparse
  · cases hdoc : TokenTree.read ⟨.java, 20⟩ text with
    | error e =>
        rw [hdoc] at hread
        cases hread
    | ok doc => exact ⟨doc, rfl, hdocument text doc hdoc⟩

end Outline

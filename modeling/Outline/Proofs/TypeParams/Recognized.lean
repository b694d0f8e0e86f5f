import Outline.Proofs.Member.Disjoint
import Outline.Proofs.TypeParams.Signatures

/-!
# Where type parameters are recognized

Lists of type parameters are read in three places: behind the name of a class or an interface, in
front of the type of a method, and, where the name comes first, inside the identifier that names a
method.  A block in braces inside the list of a declaration hides the declaration, and a list behind
the identifier of a method hides the method.

* `TypeParamList.recognized` — what is recognized in each of the places, and what is not.
-/

namespace Outline

/-- A block among siblings has its place among the places of blocks. -/
theorem Site.mem_ofSiblings (around : List SitedBlock) (before ts : List TokenTree)
    {block : TokenTree} (h : block.kind = .block) (after : List TokenTree) :
    (⟨around, ⟨ts.reverse ++ before, block⟩⟩ : Site) ∈
      ofSiblings around before (ts ++ block :: after) := by
  induction ts generalizing before with
  | nil =>
      rw [List.nil_append, ofSiblings_cons, if_pos h]
      exact List.mem_append_left _ List.mem_cons_self
  | cons t ts ih =>
      rw [List.cons_append, ofSiblings_cons, List.reverse_cons, List.append_assoc,
        List.singleton_append]
      exact List.mem_append_right _ (ih (t :: before))

namespace TypeParamList

open Extractor (Fresh Passes)
open MethodMachine (EndsIn)

/-- A declaration with type parameters is found exactly if nothing in their list ends the search for
its keyword; a method with a list in front of its type is found, and where the name comes first so
is a method whose name carries the list inside.  There a list behind the name makes the machine
forget the method. -/
theorem recognized (d : Dialect) (o : Owner) (kind : DeclarationKind)
    (hkind : o.language.hasFieldsAndMethods kind = true) :
    (∀ (h : Forest.ListedHead d) (document : TokenTree) (p : Site) (before : List TokenTree),
      h.Alone → p ∈ Site.all document → p.own.block.value.isBlock '\x7b' = true →
      p.own.before = h.tokens.reverse ++ before →
      (p.isBody d.language = true ↔ h.Unbarred) ∧
      (h.Unbarred → ∃ x ∈ (Discovery.ofDocument d.language document).declarations, ∃ outer,
        x.body = p.own.block ∧ x.declaration.kind = h.kind ∧
          x.declaration.fullName = outer ++ Text.dottedParts h.name.name ∧
          x.declaration.typeParams = h.name.params.map .simple)) ∧
    (o.language.memberOrder = .typeFirst →
      ∀ (w : ListedMethod o) (front rest : List TokenTree), Fresh o front w.first →
        (Members.ofBody o kind
          (front ++ w.front ++ w.plain.stop :: rest)).members.HasMethod w.method) ∧
    (o.language.memberOrder = .nameFirst →
      ∀ (w : ListedSignature d o) (front rest : List TokenTree), Fresh o front w.first →
        EndsIn w.draft.line rest →
        (Members.ofBody o kind (front ++ w.tokens ++ rest)).members.HasMethod w.method) ∧
    (o.language.memberOrder = .nameFirst →
      ∀ (modifiers : List TokenTree) (name opening : TokenTree) (r : TypeRef),
        (∀ m ∈ modifiers, o.language.marks .methodModifier m.value = true) →
        name.kind = .identifier → TypeRef.parse name.text = .ok r →
        opening.value.isOperator "<" = true →
        Passes o (.method .idle) (modifiers ++ [name, opening]) (.method .idle)) := by
  have hmachine : .method .idle ∈ Members.extractors o.language kind := by
    simp [Members.extractors, hkind]
  refine ⟨?_, ?_, ?_, ?_⟩
  · intro h document p before halone hp hblock hbefore
    refine ⟨h.isBody_iff halone hblock hbefore, fun hunbarred => ?_⟩
    obtain ⟨x, hx, outer, hbody, hname, hdeclared, -, hparams, -⟩ :=
      h.exists_declaration halone hunbarred hp hblock hbefore
    exact ⟨x, hx, outer, hbody, hdeclared, hname, hparams⟩
  · intro hl w front rest hfresh
    exact w.hasMethod hl hmachine hfresh rest
  · intro hl w front rest hfresh hrest
    exact w.hasMethod hl hmachine hfresh hrest
  · intro hl modifiers name opening r hmodifiers hname hparse hopens
    obtain ⟨started, hfront⟩ := Extractor.method_modifiers hmodifiers false []
    have hnamed := Extractor.signature_name hl hname hparse started (modifiers.map (·.text))
    exact hfront.append (.cons hnamed (.one (Extractor.respond_angle_behind hl hopens _)))

/-! ## Lists in use -/

/-- `T extends Base, V extends A<B>>`, where the last operator closes two lists. -/
def boundedTokens : List TokenTree :=
  [.bare .identifier "T", .bare .keyword "extends", .bare .identifier "Base",
    .bare .separator ",", .bare .identifier "V", .bare .keyword "extends", .bare .identifier "A",
    .bare .operator "<", .bare .identifier "B", .bare .operator ">>"]

/-- The list names its two parameters, and the bound of the second one holds a list itself. -/
theorem listed_bounded : Listed ["T", "V"] boundedTokens := by
  have hfirst : Bound 1 [.bare .keyword "extends", .bare .identifier "Base"] 1 :=
    .of_kinds (by decide) (by simp)
  have hopening : Bound 1 [.bare .operator "<"] 2 :=
    .cons (fun _ => rfl) (by decide) (.nil _)
  have hsecond : Bound 1 ([.bare .keyword "extends", .bare .identifier "A"] ++
      ([.bare .operator "<"] ++ [.bare .identifier "B"])) 2 :=
    (Bound.of_kinds (by decide) (by simp)).append (hopening.append (.of_kinds (by decide) (by simp)))
  exact @Listed.cons (.bare .identifier "T") (.bare .separator ",") _ _ _ rfl hfirst rfl
    (@Listed.last (.bare .identifier "V") (.bare .operator ">>") _ _ rfl hsecond rfl rfl)

/-- `class Box<T extends Base, V extends A<B>>` -/
def boundedHead : Forest.ListedHead ⟨.java, 3⟩ where
  word := .bare .keyword "class"
  kind := .classLike
  name := .behind (.bare .identifier "Box") (.bare .operator "<") boundedTokens ["T", "V"] rfl
    (by decide +kernel) (by decide) rfl listed_bounded
  rest := {
    isParens := by simp
    unending := by simp [Forest.BaseList.names]
    ending := by simp
    searched := by simp }
  introduces := rfl
  isType := .inl rfl

/-- The method `<T extends Base, V extends A<B>> T pick();` is written so. -/
theorem exists_boundedMethod : ∃ w : ListedMethod ⟨.java, ["C"]⟩,
    w.front = .bare .operator "<" :: (boundedTokens ++ [.bare .identifier "T",
      .bare .identifier "pick", .node ⟨.block, {}, "()"⟩ []]) ∧
    w.plain.stop = .bare .separator ";" ∧ w.method.typeParams = [.simple "T", .simple "V"] := by
  let result : WrittenType .java true := {
    word := .bare .identifier "T"
    named := .simple "T"
    starts := rfl
    parsed := TypeRef.parse_word (by decide)
    marked := by simp }
  let params : WrittenParams .java := {
    block := .node ⟨.block, {}, "()"⟩ []
    list := []
    isBlock := rfl
    holds := .nil
    modified := trivial }
  let plain : WrittenMethod ⟨.java, ["C"]⟩ := {
    result? := some result
    name := .bare .identifier "pick"
    params
    stop := .bare .separator ";"
    modified := by simp
    isName := ⟨rfl, by decide +kernel⟩
    owned := by simp
    isClause := .none
    stops := rfl }
  exact ⟨{
    plain
    result
    opening := .bare .operator "<"
    list := boundedTokens
    params := ["T", "V"]
    typed := rfl
    opens := rfl
    listed := listed_bounded }, rfl, rfl, rfl⟩

theorem readFrom_word : TypeMachine.readFrom .typescript true .idle [.bare .identifier "T"] =
    (.found (.simple "T"), [], []) := by
  have hparse : TypeRef.parse "T" = .ok (.simple "T") := TypeRef.parse_word (by decide)
  have hfind : TypeMachine.accept .typescript true .idle (TokenTree.bare .identifier "T").value =
      .take (.found (.simple "T")) := by
    have hstep : TypeMachine.accept .typescript true .idle
        (TokenTree.bare .identifier "T").value = TypeMachine.find "T" := rfl
    rw [hstep, TypeMachine.find, hparse]
  rw [TypeMachine.readFrom, hfind]
  rfl

open IdentifierStyle (TypeText ArgumentText ArgumentsText ListText marksText gap) in
/-- The word `load<T>` is an identifier with a list of one type. -/
theorem spells_load : (Dialect.mk .typescript 3).identifiers.Spells 3 false "load<T>".toList
    { name := "load", params := [.simple "T"] } := by
  have htype : TypeText (Dialect.mk .typescript 3).identifiers true
      (ListText (Dialect.mk .typescript 3).identifiers 2) ("T".toList ++ marksText false 0)
      (.simple "T") := .plain 0 (by decide +kernel) (by simp)
  have hlist : ListText (Dialect.mk .typescript 3).identifiers 3
      ("T".toList ++ marksText false 0 ++ gap 0) [.simple "T"] :=
    ⟨0, _, rfl, ArgumentsText.last 0 (ArgumentText.type htype)⟩
  have hload : "load<T>".toList = "load".toList ++
      '<' :: ("T".toList ++ marksText false 0 ++ gap 0 ++ '>' :: marksText false 0) := by decide
  rw [hload]
  exact TypeText.generic 0 (by decide +kernel) (by simp) hlist

/-- The method `load<T>(): T` is written so. -/
theorem exists_plainSignature : ∃ w : ListedSignature ⟨.typescript, 3⟩ ⟨.typescript, ["C"]⟩,
    w.tokens = [.bare .identifier "load<T>", .node ⟨.block, {}, "()"⟩ [], .bare .operator ":",
      .bare .identifier "T"] ∧
    w.method.typeParams = [.simple "T"] := by
  let result : WrittenResult .typescript := {
    colon := .bare .operator ":"
    tokens := [.bare .identifier "T"]
    ref := .simple "T"
    isColon := rfl
    read := ⟨.found (.simple "T"), [], readFrom_word, rfl⟩ }
  exact ⟨{
    modifiers := []
    token := .bare .identifier "load<T>"
    name := "load"
    params := ["T"]
    optional := []
    parens := .node ⟨.block, {}, "()"⟩ []
    list := []
    result? := some result
    modified := by simp
    isIdentifier := rfl
    spelled := spells_load
    unmarked := by decide
    isOptional := by simp
    isParens := rfl
    read := rfl }, rfl, rfl⟩

/-- The same bounds are read behind the name of a class and in front of the type of a method, and a
name that comes first carries its list inside. -/
theorem recognized_bounded :
    (boundedHead.Alone ∧ boundedHead.Unbarred ∧
      ∃ x ∈ (Discovery.ofDocument .java (.node default
        (boundedHead.tokens ++ [.bare .block "\x7b\x7d"]))).declarations,
        x.declaration.typeParams = [.simple "T", .simple "V"]) ∧
    (∃ m : Method TypeRef, m.typeParams = [.simple "T", .simple "V"] ∧
      (Members.ofBody ⟨.java, ["C"]⟩ .classLike (.bare .operator "<" :: (boundedTokens ++
        [.bare .identifier "T", .bare .identifier "pick", .node ⟨.block, {}, "()"⟩ [],
          .bare .separator ";"]))).members.HasMethod m) ∧
    ∃ m : Method TypeRef, m.typeParams = [.simple "T"] ∧
      (Members.ofBody ⟨.typescript, ["C"]⟩ .classLike
        [.bare .identifier "load<T>", .node ⟨.block, {}, "()"⟩ [], .bare .operator ":",
          .bare .identifier "T", .bare .separator ";"]).members.HasMethod m := by
  let body : TokenTree := .bare .block "\x7b\x7d"
  have hbrace : body.value.isBlock '\x7b' = true := by decide
  obtain ⟨hhead, hmethod, -, -⟩ := recognized ⟨.java, 3⟩ ⟨.java, ["C"]⟩ .classLike rfl
  obtain ⟨-, -, hsignature, -⟩ := recognized ⟨.typescript, 3⟩ ⟨.typescript, ["C"]⟩ .classLike rfl
  have halone : boundedHead.Alone := Head.headless_of_keywordless (by decide +kernel)
  have hunbarred : boundedHead.Unbarred := by
    intro t ht
    revert t
    decide +kernel
  refine ⟨⟨halone, hunbarred, ?_⟩, ?_, ?_⟩
  · obtain ⟨-, hfound⟩ := hhead boundedHead (.node default (boundedHead.tokens ++ [body]))
      ⟨[], ⟨boundedHead.tokens.reverse ++ [], body⟩⟩ [] halone
      (Site.mem_ofSiblings [] [] boundedHead.tokens rfl []) hbrace rfl
    obtain ⟨x, hx, outer, -, -, -, hparams⟩ := hfound hunbarred
    exact ⟨x, hx, hparams⟩
  · obtain ⟨w, hfront, hstop, hparams⟩ := exists_boundedMethod
    have hfound := hmethod rfl w [] [] rfl
    rw [List.nil_append, hfront, hstop] at hfound
    exact ⟨w.method, hparams, hfound⟩
  · obtain ⟨w, htokens, hparams⟩ := exists_plainSignature
    have hfound := hsignature rfl w [] [.bare .separator ";"] rfl (.stop rfl)
    rw [List.nil_append, htokens] at hfound
    exact ⟨w.method, hparams, hfound⟩

/-- A type parameter with a bound of a single token. -/
theorem listed_single {param word bound closer : TokenTree}
    (hparam : param.kind = .identifier) (hword : word.kind = .keyword)
    (hbound : bound.kind = .identifier ∨ bound.kind = .block)
    (hcloser : closer.kind = .operator ∧ closer.text = ">") :
    Listed [param.text] [param, word, bound, closer] := by
  have htokens : Bound 1 [word, bound] 1 := by
    refine .of_kinds (by decide) fun t ht => ?_
    simp only [List.mem_cons, List.not_mem_nil, or_false] at ht
    rcases ht with rfl | rfl
    · rw [hword]
      decide
    · rcases hbound with hkind | hkind <;> rw [hkind] <;> decide
  have hangles : isAngles closer.value = true := by
    rw [isAngles, show closer.value.kind = _ from hcloser.1,
      show closer.value.text = _ from hcloser.2]
    decide
  have hcloses : 1 + opened closer.value = 0 := by
    rw [opened, show closer.value.text = _ from hcloser.2]
    decide
  exact .last hparam htokens hangles hcloses

/-- The tokens of `f<T extends B>(a: T): void {}`. -/
theorem tokens_boundedCall : ∃ name opening list rest,
    Members.tokensOf .typescript "f<T extends B>(a: T): void \x7b\x7d" =
      name :: opening :: (list ++ rest) ∧
    name.kind = .identifier ∧ opening.value.isOperator "<" = true ∧ Listed ["T"] list ∧
    rest.map (·.text) = ["(a: T)", ":", "void", "\x7b\x7d"] := by
  have hwords : (Members.tokensOf .typescript "f<T extends B>(a: T): void \x7b\x7d").map
      (fun t => (t.kind, t.text)) =
      [(.identifier, "f"), (.operator, "<"), (.identifier, "T"), (.keyword, "extends"),
        (.identifier, "B"), (.operator, ">"), (.block, "(a: T)"), (.operator, ":"),
        (.keyword, "void"), (.block, "\x7b\x7d")] := by decide +kernel
  simp only [List.map_eq_cons_iff, List.map_eq_nil_iff, Prod.mk.injEq] at hwords
  obtain ⟨name, _, htokens, hname, opening, _, rfl, hopening, param, _, rfl, hparam, word, _,
    rfl, hword, base, _, rfl, hbase, closer, _, rfl, hcloser, parens, _, rfl, hparens, colon, _,
    rfl, hcolon, void, _, rfl, hvoid, body, _, rfl, hbody, rfl⟩ := hwords
  have hlisted := listed_single hparam.1 hword.1 (.inl hbase.1) hcloser
  rw [hparam.2] at hlisted
  refine ⟨name, opening, [param, word, base, closer], [parens, colon, void, body], htokens,
    hname.1, Token.isOperator_iff.2 hopening, hlisted, ?_⟩
  simp [hparens.2, hcolon.2, hvoid.2, hbody.2]

/-- The tokens of `class A<T extends { x: number }> {}`. -/
theorem tokens_objectBound : ∃ word name opening list body,
    Members.tokensOf .typescript "class A<T extends \x7b x: number \x7d> \x7b\x7d" =
      word :: name :: opening :: (list ++ [body]) ∧
    word.value.isKeyword "class" = true ∧ name.kind = .identifier ∧
    opening.value.isOperator "<" = true ∧ Listed ["T"] list ∧
    body.value.isBlock '\x7b' = true := by
  have hwords : (Members.tokensOf .typescript
      "class A<T extends \x7b x: number \x7d> \x7b\x7d").map (fun t => (t.kind, t.text)) =
      [(.keyword, "class"), (.identifier, "A"), (.operator, "<"), (.identifier, "T"),
        (.keyword, "extends"), (.block, "\x7b x: number \x7d"), (.operator, ">"),
        (.block, "\x7b\x7d")] := by decide +kernel
  simp only [List.map_eq_cons_iff, List.map_eq_nil_iff, Prod.mk.injEq] at hwords
  obtain ⟨word, _, htokens, hword, name, _, rfl, hname, opening, _, rfl, hopening, param, _, rfl,
    hparam, extended, _, rfl, hextended, object, _, rfl, hobject, closer, _, rfl, hcloser, body,
    _, rfl, hbody, rfl⟩ := hwords
  have hlisted := listed_single hparam.1 hextended.1 (.inr hobject.1) hcloser
  rw [hparam.2] at hlisted
  exact ⟨word, name, opening, [param, extended, object, closer], body, htokens,
    Token.isKeyword_iff.2 hword, hname.1, Token.isOperator_iff.2 hopening, hlisted,
    Token.isBlock_of_text hbody (by decide)⟩

/-- A bound in the list hides a method whose name comes first, and an object type in a bound hides
a class. -/
theorem not_recognized_bounded :
    (∃ name opening list rest,
      Members.tokensOf .typescript "f<T extends B>(a: T): void \x7b\x7d" =
        name :: opening :: (list ++ rest) ∧
      name.kind = .identifier ∧ opening.value.isOperator "<" = true ∧ Listed ["T"] list ∧
      rest.map (·.text) = ["(a: T)", ":", "void", "\x7b\x7d"] ∧
      (Members.ofBody ⟨.typescript, ["A"]⟩ .classLike
        (Members.tokensOf .typescript
          "f<T extends B>(a: T): void \x7b\x7d")).members.methods = []) ∧
    ∃ word name opening list body,
      Members.tokensOf .typescript "class A<T extends \x7b x: number \x7d> \x7b\x7d" =
        word :: name :: opening :: (list ++ [body]) ∧
      word.value.isKeyword "class" = true ∧ name.kind = .identifier ∧
      opening.value.isOperator "<" = true ∧ Listed ["T"] list ∧
      body.value.isBlock '\x7b' = true ∧
      (Discovery.ofDocument .typescript (.node default (Members.tokensOf .typescript
        "class A<T extends \x7b x: number \x7d> \x7b\x7d"))).declarations = [] := by
  constructor
  · obtain ⟨name, opening, list, rest, htokens, hname, hopening, hlisted, hrest⟩ :=
      tokens_boundedCall
    have hmethods : (Members.ofBody ⟨.typescript, ["A"]⟩ .classLike (Members.tokensOf .typescript
        "f<T extends B>(a: T): void \x7b\x7d")).members.methods.length = 0 := by decide +kernel
    exact ⟨name, opening, list, rest, htokens, hname, hopening, hlisted, hrest,
      List.eq_nil_of_length_eq_zero hmethods⟩
  · obtain ⟨word, name, opening, list, body, htokens, hword, hname, hopening, hlisted, hbody⟩ :=
      tokens_objectBound
    have hnone : (Discovery.ofDocument .typescript (.node default (Members.tokensOf .typescript
        "class A<T extends \x7b x: number \x7d> \x7b\x7d"))).declarations.length = 0 := by
      decide +kernel
    exact ⟨word, name, opening, list, body, htokens, hword, hname, hopening, hlisted, hbody,
      List.eq_nil_of_length_eq_zero hnone⟩

end TypeParamList

end Outline

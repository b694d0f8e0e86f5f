import Outline.Proofs.Declaration.HeadPlaces
import Outline.Proofs.Declaration.Headings
import Outline.Proofs.Declaration.Malformed

/-!
# Reports of a document

The malformed types of a document are those that the searches for heads and the readers of bodies
report at its places, each of one token.

* `SitedBlock.reports`, `Site.memberReports` — what is reported in front of a block and inside it.
* `Discovery.malformed_document`, `Discovery.contents_document` — the places tell all malformed
  types and all members.
* `Site.Apart` — a token that is reported and the tokens that heads and members are read from.
* `Site.apart_of_read` — they are apart, save where a token is used whatever it spells.
-/

namespace Outline

/-! ## Reports at a place -/

namespace SitedBlock

variable {l : Language} {b : SitedBlock}

/-- The attempt at which the head in front of the block is found. -/
def attempt? (l : Language) (b : SitedBlock) : Option Head.Attempt :=
  if b.block.value.isBlock '\x7b' then Head.found? l b.before else none

/-- What the search for a head in front of the block reports. -/
def reports (l : Language) (b : SitedBlock) : List Head.Report :=
  if b.block.value.isBlock '\x7b' then Head.reports l b.before else []

theorem head?_eq (l : Language) (b : SitedBlock) :
    b.head? l = (b.attempt? l).bind fun a => (a.read l).1 := by
  rw [head?, attempt?]
  split
  · rw [Head.search_eq]
    rfl
  · rfl

theorem found_of_attempt {a : Head.Attempt} (h : b.attempt? l = some a) :
    Head.found? l b.before = some a := by
  unfold attempt? at h
  split at h
  · exact h
  · cases h

/-- The base types of the head in front of the block and its name, unless it heads a namespace, are
read from tokens that spell types. -/
def Spells (l : Language) (b : SitedBlock) (head : Head) : Prop :=
  ∃ a, b.attempt? l = some a ∧
    (∀ type ∈ head.extended?.toList ++ head.implemented, ∃ place ∈ a.basePlaces l,
      ∃ t, b.before.reverse[place]? = some t ∧ TypeRef.parse t.text = .ok type) ∧
    (head.kind ≠ .package → ∃ place, a.namePlace? = some place ∧
      ∃ t, b.before.reverse[place]? = some t ∧
        ∃ type, TypeRef.parse t.text = .ok type ∧ type.parts = head.name)

theorem spells_of_head {head : Head} (h : b.head? l = some head) : b.Spells l head := by
  rw [head?_eq] at h
  obtain ⟨a, ha, hread⟩ := Option.bind_eq_some_iff.1 h
  obtain ⟨hrun, hkeyword, -⟩ :=
    Head.of_mem_attempts (List.mem_of_find?_eq_some (found_of_attempt ha))
  have hmem : ∀ x ∈ a.tokens, b.before.reverse[x.2]? = some x.1 := by
    intro x hx
    have h := Head.Attempt.mem_run hkeyword hx []
    rwa [List.append_nil, hrun, List.append_nil] at h
  refine ⟨a, ha, fun type htype => ?_, fun hkind => ?_⟩
  · obtain ⟨x, hx, hplace, hparse⟩ := Head.Attempt.exists_base hread htype
    obtain ⟨name, rest, htokens, hrest⟩ := Head.Attempt.mem_of_mem_baseTokens hx
    exact ⟨x.2, hplace, x.1, hmem x (htokens ▸ List.mem_cons_of_mem name hrest), hparse⟩
  · obtain ⟨x, hx, hplace, -, type, hparse, hparts⟩ := Head.Attempt.exists_name hread hkind
    exact ⟨x.2, hplace, x.1, hmem x hx, type, hparse, hparts⟩

theorem map_reports (l : Language) (b : SitedBlock) :
    (b.reports l).map (·.malformed) = b.noted l := by
  rw [reports, noted]
  split
  · exact (Head.malformed_search_eq l b.before).symm
  · rfl

theorem mem_reports {r : Head.Report} (h : r ∈ b.reports l) : r ∈ Head.reports l b.before := by
  unfold reports at h
  split at h
  · exact h
  · cases h

end SitedBlock

namespace Site

variable {l : Language} {p : Site}

/-- What `read` gives for the body of the declaration at a place, if it has members. -/
def ofBody {α : Type} (l : Language)
    (read : Owner → DeclarationKind → List TokenTree → List α) (p : Site) : List α :=
  match p.own.head? l with
  | some head =>
    if head.kind.hasMembers then read ⟨l, p.fullName l⟩ head.kind p.own.block.children else []
  | none => []

/-- What the reader of the body at a place reports. -/
def memberReports (l : Language) (p : Site) : List Extractor.Report := p.ofBody l Members.reports

/-- What happens while the body at a place is read. -/
def events (l : Language) (p : Site) : List Extractor.Event := p.ofBody l Members.log

/-- The members that are read from the body at a place, each with its tokens. -/
def items (l : Language) (p : Site) : List Extractor.Item := Extractor.members (p.events l)

/-- The malformed types that are reported at a place. -/
def malformed (l : Language) (p : Site) : List MalformedType :=
  (p.own.reports l).map (·.malformed) ++ (p.memberReports l).map (·.malformed)

/-- The fields, the methods and the constants of the declaration at a place. -/
def contents? (l : Language) (p : Site) :
    Option (List (Field TypeRef) × List (Method TypeRef) × List EnumMember) :=
  (p.own.head? l).map fun _ =>
    let members := ((p.events l).foldl (Extractor.replay ⟨l, p.fullName l⟩) {}).members
    (members.fields, members.methods, members.enumMembers)

theorem mem_ofBody {α : Type} {read : Owner → DeclarationKind → List TokenTree → List α} {x : α} :
    x ∈ p.ofBody l read ↔ ∃ head, p.own.head? l = some head ∧ head.kind.hasMembers = true ∧
      x ∈ read ⟨l, p.fullName l⟩ head.kind p.own.block.children := by
  rw [ofBody]
  cases p.own.head? l with
  | none => simp
  | some head => cases hmembers : head.kind.hasMembers <;> simp [hmembers]

theorem mem_items {i : Extractor.Item} :
    i ∈ p.items l ↔ ∃ head, p.own.head? l = some head ∧ head.kind.hasMembers = true ∧
      i ∈ Members.items ⟨l, p.fullName l⟩ head.kind p.own.block.children := by
  rw [← mem_ofBody, items, events, ofBody, ofBody]
  cases p.own.head? l with
  | none => rfl
  | some head => cases hmembers : head.kind.hasMembers <;> simp only [hmembers] <;> rfl

end Site

/-! ## Places tell what is found -/

/-- The fields, the methods and the constants of a declaration that has been found. -/
def Discovered.contents (found : Discovered) :
    List (Field TypeRef) × List (Method TypeRef) × List EnumMember :=
  (found.declaration.fields, found.declaration.methods, found.declaration.enumMembers)

namespace Discovery

theorem collects_malformed : Collects fun d => d.malformed where
  append := malformed_append
  packages _ := rfl
  imports _ := rfl

theorem collects_contents : Collects fun d => d.declarations.map (·.contents) where
  append a b := by rw [declarations_append, List.map_append]
  packages _ := rfl
  imports _ := rfl

/-- The malformed types of a document are those that are reported at its places. -/
theorem malformed_document (l : Language) (document : TokenTree) :
    (ofDocument l document).malformed = (Site.all document).flatMap (·.malformed l) := by
  refine collects_malformed.document (fun s p hs => ?_) document
  rw [collected, hs, Site.malformed, SitedBlock.map_reports, Site.memberReports, Site.ofBody]
  cases p.own.head? l with
  | none => rfl
  | some head =>
      dsimp only
      rw [ofHead, hs]
      cases hmembers : head.kind.hasMembers with
      | true =>
          simp only [if_true]
          rw [Members.malformed_eq]
      | false => simp

/-- The members of the declarations of a document are those that are read at its places. -/
theorem contents_document (l : Language) (document : TokenTree) :
    (ofDocument l document).declarations.map (·.contents) =
      (Site.all document).filterMap (·.contents? l) := by
  rw [List.filterMap_eq_flatMap_toList]
  refine collects_contents.document (fun s p hs => ?_) document
  rw [collected, hs, Site.contents?, Site.events, Site.ofBody]
  cases p.own.head? l with
  | none => rfl
  | some head =>
      dsimp only
      rw [ofHead, hs]
      cases hmembers : head.kind.hasMembers with
      | true => simp [Discovered.contents, Members.ofBody_members]
      | false => simp [Discovered.contents]

end Discovery

/-! ## Reports and what is read -/

namespace Site

variable {l : Language}

/-- A place is among the siblings that are searched, or among those inside the innermost of the
blocks around it. -/
theorem exists_siblings {around : List SitedBlock} {before ts : List TokenTree} {q : Site}
    (hq : q ∈ ofSiblings around before ts) :
    ∃ after, (q.around = around ∧
        before.reverse ++ ts = q.own.before.reverse ++ q.own.block :: after) ∨
      ∃ b, q.around.getLast? = some b ∧
        b.block.children = q.own.before.reverse ++ q.own.block :: after := by
  match ts with
  | [] => simp [ofSiblings] at hq
  | .node token children :: after =>
    rw [ofSiblings_cons, List.mem_append] at hq
    rcases hq with hq | hq
    · split at hq
      · rcases List.mem_cons.1 hq with rfl | hq
        · exact ⟨after, .inl ⟨rfl, rfl⟩⟩
        · obtain ⟨after', h⟩ := exists_siblings hq
          refine ⟨after', .inr (h.elim (fun h => ?_) id)⟩
          exact ⟨⟨before, .node token children⟩, by rw [h.1, List.getLast?_concat], h.2⟩
      · cases hq
    · obtain ⟨after', h⟩ := exists_siblings hq
      exact ⟨after', h.imp_left fun h => ⟨h.1, by rw [← h.2]; simp⟩⟩
termination_by sizeOf ts

/-- What stands inside a block is in front of a place directly inside it, at it or behind it. -/
theorem children_of_around {document : TokenTree} {p q : Site} (hq : q ∈ all document)
    (haround : q.around = p.blocks) :
    ∃ after, p.own.block.children = q.own.before.reverse ++ q.own.block :: after := by
  obtain ⟨after, ⟨hnil, -⟩ | ⟨b, hb, hchildren⟩⟩ := exists_siblings hq
  · rw [haround, blocks] at hnil
    exact absurd hnil (by simp)
  · rw [haround, blocks, List.getLast?_concat] at hb
    obtain rfl := Option.some.inj hb
    exact ⟨after, hchildren⟩

/-- The token at a place inside the block is reported: by the reader of the body, or by the search
for a head in front of a block directly inside it. -/
def IsReported (l : Language) (document : TokenTree) (p : Site) (place : Nat) : Prop :=
  (∃ r ∈ p.memberReports l, r.place = place) ∨
    ∃ q ∈ all document, q.around = p.blocks ∧ ∃ r ∈ q.own.reports l, r.place = place

/-- The tokens that are reported at a place, and those that the head there, the members of its body
and the heads directly inside it are read from. -/
structure Apart (l : Language) (document : TokenTree) (p : Site) : Prop where
  /-- What the search for the head reports is of tokens in front of the block. -/
  ofHead : ∀ r ∈ p.own.reports l,
    ∃ t, p.own.before.reverse[r.place]? = some t ∧ r.malformed.IsOf t.value
  /-- What the reader of the body reports is of tokens inside the block. -/
  ofMembers : ∀ r ∈ p.memberReports l, r.StandsIn p.own.block.children
  /-- The head is read from tokens that spell types. -/
  spells : ∀ head, p.own.head? l = some head → p.own.Spells l head
  /-- What the search reports stands behind the keyword of the head that it finds, and neither the
  name of the head nor a base type is read from it. -/
  head : ∀ a, p.own.attempt? l = some a → ∀ r ∈ p.own.reports l,
    a.before.length < r.place ∧ a.namePlace? ≠ some r.place ∧ r.place ∉ a.basePlaces l
  /-- A member that uses a token that is reported uses it whatever it spells. -/
  members : ∀ i ∈ p.items l, ∀ place ∈ i.places, p.IsReported l document place →
    ∃ u ∈ i.uses, u.place = place ∧ u.state.isLax = true
  /-- No head inside the body reads a base type, or its name unless it heads a namespace, from a
  token that the reader of the body reports. -/
  inside : ∀ q ∈ all document, q.around = p.blocks → ∀ head, q.own.head? l = some head →
    ∀ a, q.own.attempt? l = some a → ∀ r ∈ p.memberReports l,
      r.place ∉ a.basePlaces l ∧ (head.kind ≠ .package → a.namePlace? ≠ some r.place)

variable {p : Site}

/-- A member that uses a token that a search for a head inside the body reports uses it whatever it
spells. -/
theorem lax_of_inside (hl : l.memberOrder = .nameFirst) {q : Site} {after : List TokenTree}
    (hchildren : p.own.block.children = q.own.before.reverse ++ after)
    {r : Head.Report} (hr : r ∈ q.own.reports l) {i : Extractor.Item} (hi : i ∈ p.items l)
    (hplace : r.place ∈ i.places) : ∃ u ∈ i.uses, u.place = r.place ∧ u.state.isLax = true := by
  obtain ⟨head, -, -, hi⟩ := mem_items.1 hi
  obtain ⟨u, hu, hup⟩ := Extractor.Item.mem_places.1 hplace
  obtain ⟨t, ht, hof, v, hv, hlisted⟩ :=
    Head.exists_of_mem_reports (SitedBlock.mem_reports hr) after
  rw [← hchildren, ← hup] at ht hv
  obtain ⟨hused, hmarks⟩ := Members.lax_of_malformed hl hi hu ht hof.isMalformed
  refine ⟨u, hu, hup, hused.resolve_right ?_⟩
  rintro ⟨mark, hmark, -⟩
  obtain ⟨v', hv', heq⟩ := hmarks mark hmark
  obtain rfl := Option.some.inj (hv.symm.trans hv')
  exact Head.not_mem_awaiting hl hlisted (heq ▸ Extractor.mem_awaiting hmark)

/-- Where the name comes first, what is reported is apart from what is read. -/
theorem apart_of_nameFirst (hl : l.memberOrder = .nameFirst) (document : TokenTree) (p : Site) :
    p.Apart l document := by
  have hmembers : ∀ r ∈ p.memberReports l, r.StandsIn p.own.block.children := by
    intro r hr
    obtain ⟨head, -, -, hr⟩ := mem_ofBody.1 hr
    exact Members.standsIn_of_reports hl hr
  refine ⟨fun r hr => ?_, hmembers, fun _ => SitedBlock.spells_of_head, fun a ha r hr => ?_,
    fun i hi place hplace hreported => ?_, fun q hq haround head hhead a ha r hr => ?_⟩
  · obtain ⟨t, ht, hof, -⟩ := Head.exists_of_mem_reports (SitedBlock.mem_reports hr) []
    rw [List.append_nil] at ht
    exact ⟨t, ht, hof⟩
  · exact Head.spared_of_reported (SitedBlock.mem_reports hr) (SitedBlock.found_of_attempt ha)
  · rcases hreported with ⟨r, hr, rfl⟩ | ⟨q, hq, haround, r, hr, rfl⟩
    · obtain ⟨head, hhead, -, hr⟩ := mem_ofBody.1 hr
      obtain ⟨head', hhead', -, hi⟩ := mem_items.1 hi
      obtain rfl := Option.some.inj (hhead.symm.trans hhead')
      exact (Members.lax_of_reported hl hr hi hplace).2
    · obtain ⟨after, hchildren⟩ := children_of_around hq haround
      exact lax_of_inside hl hchildren hr hi hplace
  · obtain ⟨after, hchildren⟩ := children_of_around hq haround
    rw [SitedBlock.head?_eq, ha] at hhead
    obtain ⟨hrun, hkeyword, -⟩ :=
      Head.of_mem_attempts (List.mem_of_find?_eq_some (SitedBlock.found_of_attempt ha))
    rw [List.append_nil] at hrun
    obtain ⟨t, ht, hof⟩ := hmembers r hr
    rw [hchildren, ← hrun] at ht
    have hnone := hof.imp MalformedType.IsOf.isMalformed And.left
    exact ⟨Head.Attempt.not_mem_basePlaces hkeyword ht hnone,
      Head.Attempt.ne_namePlace? hkeyword hhead ht hnone⟩

/-- Where nothing is reported, all is apart. -/
theorem apart_of_silent {document : TokenTree} (hp : p ∈ all document)
    (h : ∀ q ∈ all document, q.malformed l = []) : p.Apart l document := by
  have hsilent : ∀ q ∈ all document, q.own.reports l = [] ∧ q.memberReports l = [] := by
    intro q hq
    have hnone := List.append_eq_nil_iff.1 (h q hq)
    exact ⟨List.map_eq_nil_iff.1 hnone.1, List.map_eq_nil_iff.1 hnone.2⟩
  obtain ⟨hreports, hmembers⟩ := hsilent p hp
  refine ⟨?_, ?_, fun _ => SitedBlock.spells_of_head, fun a ha => ?_, fun i hi place hplace => ?_,
    fun q hq haround head hhead a ha => ?_⟩
  · simp [hreports]
  · simp [hmembers]
  · simp [hreports]
  · rintro (⟨r, hr, -⟩ | ⟨q, hq, -, r, hr, -⟩)
    · simp [hmembers] at hr
    · simp [(hsilent q hq).1] at hr
  · simp [hmembers]

/-- The malformed types of a text are reports of tokens that neither the heads nor the members are
read from, save in a list of type parameters, an annotation or the name of a namespace, and where a
member uses a token whatever it spells.

* Heads, members and malformed types are what the places tell.
* What is reported is apart from what is read.
* So no member has a token that is reported exactly if no member uses one whatever it spells.
* Where the type comes first, nothing is reported.
* The first report costs the file its unit, if the policy is to fail. -/
theorem apart_of_read {d : Dialect} {text : String} {document : TokenTree}
    (h : TokenTree.read d text = .ok document) :
    ((Discovery.ofDocument d.language document).declarations.map (·.heading) =
        (all document).filterMap (·.heading? d.language) ∧
      (Discovery.ofDocument d.language document).declarations.map (·.contents) =
        (all document).filterMap (·.contents? d.language) ∧
      (Discovery.ofDocument d.language document).malformed =
        (all document).flatMap (·.malformed d.language)) ∧
    (∀ p ∈ all document, p.Apart d.language document) ∧
    ((∀ p ∈ all document, ∀ i ∈ p.items d.language, ∀ place ∈ i.places,
        ¬ p.IsReported d.language document place) ↔
      ∀ p ∈ all document, ∀ i ∈ p.items d.language, ∀ u ∈ i.uses, u.state.isLax = true →
        ¬ p.IsReported d.language document u.place) ∧
    (d.language.memberOrder = .typeFirst →
      ∀ p ∈ all document, p.malformed d.language = []) ∧
    ∀ sourceId, SourceUnit.read sourceId text d .failFile =
      match (all document).flatMap (·.malformed d.language) with
      | [] => SourceUnit.read sourceId text d .skipMember
      | first :: _ => .error (.malformedType sourceId first) := by
  have hmalformed := Discovery.malformed_document d.language document
  have hsilent : d.language.memberOrder = .typeFirst →
      ∀ p ∈ all document, p.malformed d.language = [] := by
    intro horder
    rw [Discovery.malformed_ofDocument horder (TokenTree.allSpelled_of_read horder h)]
      at hmalformed
    exact List.flatMap_eq_nil_iff.1 hmalformed.symm
  have hapart : ∀ p ∈ all document, p.Apart d.language document := by
    intro p hp
    cases horder : d.language.memberOrder with
    | nameFirst => exact apart_of_nameFirst horder document p
    | typeFirst => exact apart_of_silent hp (hsilent horder)
  refine ⟨⟨Discovery.headings_document _ _, Discovery.contents_document _ _, hmalformed⟩, hapart,
    ⟨fun hnone p hp i hi u hu _ => ?_, fun hlax p hp i hi place hplace hreported => ?_⟩,
    hsilent, ?_⟩
  · exact hnone p hp i hi u.place (List.mem_map.2 ⟨u, hu, rfl⟩)
  · obtain ⟨u, hu, rfl, hused⟩ := (hapart p hp).members i hi place hplace hreported
    exact hlax p hp i hi u hu hused hreported
  · intro sourceId
    rw [← hmalformed]
    unfold SourceUnit.read
    simp only [h, Except.mapError, bind, Except.bind]
    cases (Discovery.ofDocument d.language document).malformed <;> rfl

/-- A base type and a method that are left out. -/
theorem apart_of_read_omitted : ∃ document,
    TokenTree.read ⟨.typescript, 3⟩ "class A extends #B { f(x: #C): void; y: number; }" =
      .ok document ∧
    ((all document).flatMap (·.malformed .typescript)).map (·.text) = ["#B", "#C"] ∧
    (∀ p ∈ all document, p.Apart .typescript document) ∧
    ∀ sourceId, ∃ first, first.text = "#B" ∧
      SourceUnit.read sourceId "class A extends #B { f(x: #C): void; y: number; }"
        ⟨.typescript, 3⟩ .failFile = .error (.malformedType sourceId first) := by
  obtain ⟨document, hread, htexts⟩ := TokenTree.exists_read_of_any ⟨.typescript, 3⟩
    "class A extends #B { f(x: #C): void; y: number; }"
    (fun document => ((all document).flatMap (·.malformed .typescript)).map (·.text) ==
      ["#B", "#C"]) (by decide +kernel)
  obtain ⟨-, hapart, -, -, hfails⟩ := apart_of_read hread
  have htexts := beq_iff_eq.1 htexts
  refine ⟨document, hread, htexts, hapart, fun sourceId => ?_⟩
  obtain ⟨first, rest, hreports, htext, -⟩ := List.map_eq_cons_iff.1 htexts
  refine ⟨first, htext, ?_⟩
  rw [hfails, hreports]

/-- The name of a private field is reported, although the field is read. -/
theorem not_apart_private : ∃ document,
    TokenTree.read ⟨.typescript, 3⟩ "class A { #x: number; }" = .ok document ∧
    ((Discovery.ofDocument .typescript document).declarations.map fun x =>
      x.declaration.fields.map (·.name)) = [["#x"]] ∧
    (Discovery.ofDocument .typescript document).malformed.map (·.text) = ["#x"] ∧
    ¬ ∀ p ∈ all document, ∀ i ∈ p.items .typescript, ∀ place ∈ i.places,
      ¬ p.IsReported .typescript document place := by
  obtain ⟨document, hread, hfound⟩ := TokenTree.exists_read_of_any ⟨.typescript, 3⟩
    "class A { #x: number; }"
    (fun document =>
      ((Discovery.ofDocument .typescript document).declarations.map fun x =>
        x.declaration.fields.map (·.name)) == [["#x"]] &&
      (Discovery.ofDocument .typescript document).malformed.map (·.text) == ["#x"] &&
      (all document).any fun p => (p.items .typescript).any fun i => i.places.any fun place =>
        (p.memberReports .typescript).any fun r => r.place == place) (by decide +kernel)
  simp only [Bool.and_eq_true, beq_iff_eq] at hfound
  obtain ⟨⟨hfields, hmalformed⟩, hmeets⟩ := hfound
  refine ⟨document, hread, hfields, hmalformed, fun h => ?_⟩
  simp only [List.any_eq_true, beq_iff_eq] at hmeets
  obtain ⟨p, hp, i, hi, place, hplace, r, hr, rfl⟩ := hmeets
  exact h p hp i hi r.place hplace (.inl ⟨r, hr, rfl⟩)

end Site

end Outline

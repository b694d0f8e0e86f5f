import Outline.Proofs.Member.Disjoint
import Outline.Proofs.Written.Marks
import Outline.Proofs.Written.MethodBodies

/-!
# Members are read as they are written

A body that is a list of written declarations is read one declaration after the other, and after
each of them nothing is kept but what waits for the next one.

* `Declared.gain` — what is read from a declaration.
* `Extractor.readAll_declared` — a declaration, fed to the machines.
* `Members.exact_iff` — exactly the fields and methods that are declared are read from a body and
  from every part of it if and only if each declaration is read as it is written.
-/

namespace Outline

/-! ## What is read from a declaration -/

namespace Declared

variable {o : Owner}

/-- What is read from a declaration.  The annotations and comments in front of it are lost with a
body that no machine uses up. -/
def gain (d : Declared o) (h : Harvest) : Harvest :=
  let h := ((h.wait d.annotations d.comments).takeField d.readField?).takeMethod d.readMethod?
  if !(d.readField?.isSome || d.readMethod?.isSome) && d.body.stop.value.isBlock '\x7b' then
    h.dropPending
  else h

end Declared

namespace Extractor

variable {o : Owner} {t : TokenTree}

theorem IsInner.silent (h : IsInner t) : Silent t :=
  ⟨h.notComment, h.notSeparator (by decide), h.notBlock (by decide)⟩

theorem silent_of_isBody (h : MethodMachine.isBody t.value = true) : Silent t := by
  obtain ⟨hkind, hat, hblock⟩ := leaves_of_isBody h
  exact ⟨by rcases hkind with h | h <;> rw [h] <;> decide, hat, hblock '[' (by decide)⟩

/-- No comment and no annotation has a block in braces. -/
theorem lead_notBrace (lead : WrittenLead o.language) (ht : t ∈ lead.tokens) :
    t.value.isBlock '\x7b' = false := by
  cases lead with
  | comment token isComment =>
      obtain rfl := List.mem_singleton.1 ht
      exact Token.isBlock_eq_false (by rw [show t.value.kind = _ from isComment]; decide) _
  | mark mark =>
      cases mark with
      | brackets block hstyle isBlock found =>
          obtain rfl := List.mem_singleton.1 ht
          exact Token.isBlock_ne isBlock (by decide)
      | sign start name arguments? hstyle hstart hname hblock =>
          simp only [WrittenLead.tokens, WrittenMark.tokens, List.mem_cons, Option.mem_toList] at ht
          rcases ht with rfl | rfl | ht
          · exact Token.isBlock_eq_false (by rw [Token.kind_of_isSeparator hstart]; decide) _
          · exact Token.isBlock_eq_false (by rw [show t.value.kind = _ from hname]; decide) _
          · exact Token.isBlock_ne (hblock t ht) (by decide)

/-- The machine that reads annotations reads those in front of a declaration, and no others. -/
theorem annotation_declared (hl : o.language.memberOrder = .typeFirst) (d : Declared o) :
    Feeds o (annotations .idle) (d.leads.flatMap (·.tokens) ++ d.body.front) d.annotations []
      (annotations .idle) := by
  obtain ⟨a, held, read, hleads, ha, hread⟩ :=
    annotation_leads (o := o) (Or.inl ⟨rfl, rfl⟩) d.leads
  obtain ⟨rest, hfront⟩ := d.body.exists_front
  have hinner := d.body.inner_front hl
  rw [hfront] at hinner
  have hfirst := annotation_word ha (IsInner.silent (hinner _ List.mem_cons_self))
    (isParen_of_word (d.body.word_first hl))
  have hrest := annotation_run (o := o) fun t ht =>
    IsInner.silent (hinner t (List.mem_cons_of_mem _ ht))
  have hall := hleads.append (hfirst.append hrest)
  rw [List.append_nil, hread, List.nil_append] at hall
  rw [hfront]
  exact hall

/-- The machine that reads comments reads those in front of a declaration, and no others. -/
theorem comment_declared (hl : o.language.memberOrder = .typeFirst) (d : Declared o) :
    Feeds o (comment none) (d.leads.flatMap (·.tokens) ++ d.body.front) [] d.comments
      (comment none) := by
  have hfront := comment_run (o := o) fun t ht => (d.body.inner_front hl t ht).notComment
  have hall := (comment_leads (o := o) d.leads).append hfront
  simp only [List.append_nil] at hall
  exact hall

/-- The machines that read the members of a class. -/
def memberMachines : List Extractor :=
  [field .idle, method .idle, annotations .idle, comment none]

/-- After a declaration nothing is kept but what waits for the next one. -/
theorem readAll_declared (hl : o.language.memberOrder = .typeFirst) (d : Declared o)
    (h : Harvest) :
    (readAll o memberMachines h d.tokens).1 = memberMachines ∧
      (readAll o memberMachines h d.tokens).2.bare = d.gain h.bare := by
  obtain ⟨f, hfields, hf⟩ := field_leads (x := .nothing) (f := .idle) hl rfl d.leads
  obtain ⟨m, hmethods, hm⟩ := method_leads (x := .nothing) (m := .idle) hl rfl d.leads
  obtain ⟨f', fended, hffront, hfstop, hfended⟩ := field_reads hl hf d.body
  obtain ⟨m', mended, hmfront, hmstop, hmended⟩ := method_reads hl hm d.body
  have hbody := d.body.isBody_stop
  have hastop := annotation_silent (o := o) (silent_of_isBody hbody)
  have hcstop := comment_passes (o := o) (silent_of_isBody hbody).notComment
  have hbrace : ∀ t ∈ d.leads.flatMap (·.tokens) ++ d.body.front,
      t.value.isBlock '\x7b' = false := by
    intro t ht
    rcases List.mem_append.1 ht with ht | ht
    · obtain ⟨lead, -, ht⟩ := List.mem_flatMap.1 ht
      exact lead_notBrace lead ht
    · exact (d.body.inner_front hl t ht).notBlock (by decide)
  -- nothing ends in front of the last token
  obtain ⟨hmachines, hharvest⟩ := readAll_feeds (hfields.append hffront)
    (hmethods.append hmfront) (annotation_declared hl d) (comment_declared hl d) hbrace h
  have htokens : d.tokens =
      d.leads.flatMap (·.tokens) ++ d.body.front ++ [d.body.stop] := by
    rw [Declared.tokens, Written.tokens, List.append_assoc]
  have hlast : ∀ es h, readAll o es h [d.body.stop] = read o es h d.body.stop := fun _ _ => rfl
  rw [htokens, readAll_append, hlast, memberMachines, hmachines]
  obtain ⟨hread, hgain⟩ := read_respond o d.body.stop
    [f', m', annotations .idle, comment none]
    (readAll o [field .idle, method .idle, annotations .idle, comment none] h
      (d.leads.flatMap (·.tokens) ++ d.body.front)).2
  refine ⟨?_, ?_⟩
  · rw [hread]
    simp [hfstop, hmstop, hastop, hcstop, reset]
  · rw [hgain, hharvest]
    simp [hfstop, hmstop, hastop, hcstop, hfended, hmended, Declared.gain, Declared.readField?,
      Declared.readMethod?, Declared.remnant, Remnant.ofLeads]

/-- Declarations are read one after the other. -/
theorem readAll_written (hl : o.language.memberOrder = .typeFirst) (ds : List (Declared o))
    (h : Harvest) :
    (readAll o memberMachines h (ds.flatMap (·.tokens))).1 = memberMachines ∧
      (readAll o memberMachines h (ds.flatMap (·.tokens))).2.bare =
        ds.foldl (fun h d => d.gain h) h.bare := by
  induction ds generalizing h with
  | nil => exact ⟨rfl, rfl⟩
  | cons d ds ih =>
      obtain ⟨hmachines, hgain⟩ := readAll_declared hl d h
      rw [List.flatMap_cons, readAll_append, hmachines, List.foldl_cons, ← hgain]
      exact ih _

/-- At the end of a body nothing is left to end. -/
theorem run_members (hl : o.language.memberOrder = .typeFirst) {ts : List TokenTree}
    (h : (readAll o memberMachines {} ts).1 = memberMachines) :
    (run o memberMachines ts).members = (readAll o memberMachines {} ts).2.members := by
  unfold run
  simp only [h]
  simp [memberMachines, close, bodyEnd, FieldMachine.bodyEnd, MethodMachine.bodyEnd,
    AnnotationMachine.bodyEnd, deliver, hl, FieldMachine.idle, MethodMachine.idle]

end Extractor

/-! ## Bodies -/

namespace Declared

variable {o : Owner}

/-- A harvest in which nothing waits, with the given members. -/
def harvest (fields : List (Field TypeRef)) (methods : List (Method TypeRef)) : Harvest :=
  { members := { fields, methods } }

/-- A declaration that is read as it is written adds its member. -/
theorem gain_of_isRead {d : Declared o} (h : d.IsRead) (fields : List (Field TypeRef))
    (methods : List (Method TypeRef)) :
    d.gain (harvest fields methods) =
      harvest (fields ++ d.field?.toList) (methods ++ d.method?.toList) := by
  unfold gain field? method?
  rw [h.1, h.2]
  cases hbody : d.body with
  | field f => simp [Written.field?, Written.method?, Harvest.takeField, Harvest.takeMethod,
      Harvest.wait, Harvest.dropPending, harvest, annotations, comments]
  | method m => simp [Written.field?, Written.method?, Harvest.takeField, Harvest.takeMethod,
      Harvest.wait, Harvest.dropPending, harvest, annotations, comments]
  | nested n =>
      simp [Written.field?, Written.method?, Harvest.takeField, Harvest.takeMethod,
        Harvest.wait, Harvest.dropPending, harvest, Written.stop, n.stops]

theorem foldl_gain {ds : List (Declared o)} (h : ∀ d ∈ ds, d.IsRead)
    (fields : List (Field TypeRef)) (methods : List (Method TypeRef)) :
    ds.foldl (fun h d => d.gain h) (harvest fields methods) =
      harvest (fields ++ ds.filterMap (·.field?)) (methods ++ ds.filterMap (·.method?)) := by
  induction ds generalizing fields methods with
  | nil => simp
  | cons d ds ih =>
      rw [List.foldl_cons, gain_of_isRead (h d List.mem_cons_self),
        ih fun d hd => h d (List.mem_cons_of_mem _ hd)]
      cases hf : d.field? <;> cases hm : d.method? <;> simp [hf, hm]

/-! ### Declarations by themselves -/

/-- A field is read as it is written or not at all. -/
theorem readField?_eq (w : Written o) (x : Remnant) :
    w.readField? x = none ∨ w.readField? x = w.field? := by
  cases x with
  | type r =>
      rw [Written.readField?]
      split
      · exact Or.inl rfl
      · exact Or.inr rfl
  | _ => exact Or.inr rfl

theorem bare_method? {w : Written o} {m : Method TypeRef} (h : w.method? = some m) :
    m.annotations = [] ∧ m.comments = [] := by
  cases w with
  | method w =>
      cases h
      exact ⟨rfl, rfl⟩
  | _ => cases h

theorem bare_readMethod? {w : Written o} {x : Remnant} {m : Method TypeRef}
    (h : w.readMethod? x = some m) : m.annotations = [] ∧ m.comments = [] := by
  cases x with
  | nothing => exact bare_method? h
  | arguments => exact bare_method? h
  | parameters r ps =>
      rw [Written.readMethod?] at h
      split at h
      · cases h
        exact ⟨rfl, rfl⟩
      · exact bare_method? h
  | type r =>
      rw [Written.readMethod?] at h
      split at h
      · unfold Written.readBehindType? at h
        split at h
        · split at h
          · cases h
            exact ⟨rfl, rfl⟩
          · split at h <;> cases h
            exact ⟨rfl, rfl⟩
        · cases h
        · cases h
      · exact bare_method? h

/-- A declaration that is read exactly by itself is read as it is written. -/
theorem isRead_of_gain {d : Declared o}
    (hfields : (d.gain (harvest [] [])).members.fields = d.field?.toList)
    (hmethods : (d.gain (harvest [] [])).members.methods = d.method?.toList) : d.IsRead := by
  have hgain : (d.gain (harvest [] [])).members = ((((harvest [] []).wait d.annotations
      d.comments).takeField d.readField?).takeMethod d.readMethod?).members := by
    unfold gain
    split <;> rfl
  rw [hgain] at hfields hmethods
  have hfield : d.readField? = d.body.field? := by
    rcases readField?_eq d.body d.remnant with hnone | heq
    · unfold readField?
      rw [hnone]
      unfold field? readField? at hfields
      rw [hnone] at hfields
      cases hw : d.body.field? with
      | none => rfl
      | some f =>
          rw [hw] at hfields
          cases hm : d.readMethod? <;> rw [hm] at hfields <;> cases hfields
    · exact heq
  refine ⟨hfield, ?_⟩
  rw [hfield] at hmethods
  unfold method? at hmethods
  cases hread : d.readMethod? with
  | none =>
      rw [hread] at hmethods
      cases hw : d.body.method? with
      | none => rfl
      | some m =>
          rw [hw] at hmethods
          cases hf : d.body.field? <;> rw [hf] at hmethods <;> cases hmethods
  | some m' =>
      cases hw : d.body.method? with
      | none =>
          rw [hread, hw] at hmethods
          cases hf : d.body.field? <;> rw [hf] at hmethods <;> cases hmethods
      | some m =>
          have hf : d.body.field? = none := by
            cases hbody : d.body with
            | method w => rfl
            | _ => rw [hbody] at hw; cases hw
          rw [hread, hw, hf] at hmethods
          obtain ⟨hannotations, hcomments⟩ := bare_method? hw
          obtain ⟨hannotations', hcomments'⟩ := bare_readMethod? hread
          cases m
          cases m'
          simp_all [Harvest.takeField, Harvest.takeMethod, Harvest.wait, harvest]

end Declared

/-! ## Bodies -/

namespace Members

variable {o : Owner} {kind : DeclarationKind}

/-- What is read from a list of written declarations. -/
theorem ofBody_written (hl : o.language.memberOrder = .typeFirst)
    (hkind : kind = .classLike ∨ kind = .interfaceLike) (ds : List (Declared o)) :
    (ofBody o kind (ds.flatMap (·.tokens))).members =
      (ds.foldl (fun h d => d.gain h) (Declared.harvest [] [])).members := by
  have hmachines : extractors o.language kind = Extractor.memberMachines := by
    rcases hkind with rfl | rfl <;> rfl
  obtain ⟨hidle, hgain⟩ := Extractor.readAll_written hl ds {}
  have hmembers := congrArg Harvest.members hgain
  rw [ofBody, hmachines]
  exact (Extractor.run_members hl hidle).trans hmembers

/-- Exactly the fields and methods that are declared in a body are read from it. -/
def IsExact (kind : DeclarationKind) (ds : List (Declared o)) : Prop :=
  (ofBody o kind (ds.flatMap (·.tokens))).members.fields = ds.filterMap (·.field?) ∧
    (ofBody o kind (ds.flatMap (·.tokens))).members.methods = ds.filterMap (·.method?)

/-- Bodies are read exactly as they are written, whatever is left out of them, if and only if each
of their declarations is. -/
theorem exact_iff (hl : o.language.memberOrder = .typeFirst)
    (hkind : kind = .classLike ∨ kind = .interfaceLike) (ds : List (Declared o)) :
    (∀ es, es.Sublist ds → IsExact kind es) ↔ ∀ d ∈ ds, d.IsRead := by
  constructor
  · intro h d hd
    obtain ⟨hfields, hmethods⟩ := h [d] (List.singleton_sublist.2 hd)
    rw [ofBody_written hl hkind] at hfields hmethods
    refine Declared.isRead_of_gain (hfields.trans ?_) (hmethods.trans ?_)
    · cases hf : d.field? <;> simp [hf]
    · cases hm : d.method? <;> simp [hm]
  · intro h es hes
    have hgain := Declared.foldl_gain (fun d hd => h d (hes.subset hd)) [] []
    unfold IsExact
    rw [ofBody_written hl hkind, hgain]
    exact ⟨List.nil_append _, List.nil_append _⟩

theorem isSeparator_of {t : TokenTree} {sep : String} (h : t.kind = .separator ∧ t.text = sep) :
    t.value.isSeparator sep = true :=
  Token.isSeparator_iff.2 h

/-- A field of the class `C` behind two annotations. -/
def annotatedField {start first next second type name stop : TokenTree}
    (hstart : start.kind = .separator ∧ start.text = "@") (hfirst : first.kind = .identifier)
    (hnext : next.kind = .separator ∧ next.text = "@") (hsecond : second.kind = .identifier)
    (arguments? : Option TokenTree) (harguments : ∀ b ∈ arguments?, b.value.isBlock '(' = true)
    (htype : type.kind = .identifier ∧ type.text = "Foo")
    (hname : name.kind = .identifier ∧ name.text = "x")
    (hstop : stop.kind = .separator ∧ stop.text = ";") : Declared ⟨.java, ["C"]⟩ where
  leads := [
    .mark (.sign start first none rfl (isSeparator_of hstart) hfirst (by simp)),
    .mark (.sign next second arguments? rfl (isSeparator_of hnext) hsecond harguments)]
  body := .field {
    type := {
      word := type
      named := .simple "Foo"
      starts := by
        rw [TypeMachine.starts, show type.value.kind = _ from htype.1]
      parsed := by
        rw [htype.2]
        exact TypeRef.parse_word (by decide)
      marked := by simp }
    name
    stop
    modified := by simp
    isName := ⟨hname.1, hname.2 ▸ by decide⟩
    stops := Or.inl (isSeparator_of hstop) }

/-- A field behind an annotation with arguments, which itself follows one without. -/
theorem exact_iff_arguments : ∃ d : Declared ⟨.java, ["C"]⟩,
    d.tokens = tokensOf .java "@A @B(1) Foo x;" ∧ d.field?.isSome = true ∧
      (∀ e ∈ [d], e.IsRead) ∧ ∀ es, es.Sublist [d] → IsExact .classLike es := by
  have hwords : (tokensOf .java "@A @B(1) Foo x;").map (fun t => (t.kind, t.text)) =
      [(.separator, "@"), (.identifier, "A"), (.separator, "@"), (.identifier, "B"),
        (.block, "(1)"), (.identifier, "Foo"), (.identifier, "x"), (.separator, ";")] := by
    decide +kernel
  simp only [List.map_eq_cons_iff, List.map_eq_nil_iff, Prod.mk.injEq] at hwords
  obtain ⟨start, _, htokens, hstart, first, _, rfl, hfirst, next, _, rfl, hnext, second, _, rfl,
    hsecond, arguments, _, rfl, harguments, type, _, rfl, htype, name, _, rfl, hname, stop, _, rfl,
    hstop, rfl⟩ := hwords
  have hblock : arguments.value.isBlock '(' = true :=
    Token.isBlock_of_text harguments (by decide)
  let d := annotatedField hstart hfirst.1 hnext hsecond.1 (some arguments)
    (fun b hb => Option.some.inj hb ▸ hblock) htype hname hstop
  have hremnant : d.remnant = .nothing := by
    have hparse : TypeRef.parse second.text = .ok (.simple "B") := by
      rw [hsecond.2]
      exact TypeRef.parse_word (by decide)
    simp only [d, annotatedField, Declared.remnant, Remnant.ofLeads, List.foldl_cons,
      List.foldl_nil, Remnant.after, Option.isSome_none, Bool.false_eq_true, if_false,
      Remnant.ofName, hparse]
    rfl
  have hread : d.IsRead := by
    rw [Declared.IsRead, Declared.readField?, Declared.readMethod?, hremnant]
    exact ⟨rfl, rfl⟩
  have hall : ∀ e ∈ [d], e.IsRead := fun e he => List.mem_singleton.1 he ▸ hread
  exact ⟨d, htokens.symm, rfl, hall, (exact_iff rfl (Or.inl rfl) [d]).2 hall⟩

/-- A field behind two annotations without arguments is lost. -/
theorem not_exact_annotations : ∃ d : Declared ⟨.java, ["C"]⟩,
    d.tokens = tokensOf .java "@A @B Foo x;" ∧ d.field?.isSome = true ∧
      ¬ IsExact .classLike [d] := by
  have hwords : (tokensOf .java "@A @B Foo x;").map (fun t => (t.kind, t.text)) =
      [(.separator, "@"), (.identifier, "A"), (.separator, "@"), (.identifier, "B"),
        (.identifier, "Foo"), (.identifier, "x"), (.separator, ";")] := by decide +kernel
  have hfields : (ofBody ⟨.java, ["C"]⟩ .classLike
      (tokensOf .java "@A @B Foo x;")).members.fields.length = 0 := by decide +kernel
  simp only [List.map_eq_cons_iff, List.map_eq_nil_iff, Prod.mk.injEq] at hwords
  obtain ⟨start, _, htokens, hstart, first, _, rfl, hfirst, next, _, rfl, hnext, second, _, rfl,
    hsecond, type, _, rfl, htype, name, _, rfl, hname, stop, _, rfl, hstop, rfl⟩ := hwords
  let d := annotatedField hstart hfirst.1 hnext hsecond.1 none (by simp) htype hname hstop
  refine ⟨d, htokens.symm, rfl, ?_⟩
  rintro ⟨hexact, -⟩
  have hlength := congrArg List.length hexact
  rw [show [d].flatMap (·.tokens) = _ from htokens.symm, hfields] at hlength
  have hfield : ([d].filterMap (·.field?)).length = 1 := rfl
  omega

end Members

end Outline

import Outline.Proofs.Relayout.Machines

/-!
# Bodies without their layout

What the machines together read from the body of a declaration differs at most in what the layout
may change.

* `Spelling.field`, `Spelling.method`, `Spelling.enumMember` — what is compared of members.
* `Spelling.members_ofBody` — the members of a body are the same.
-/

namespace Outline.Spelling

variable (σ : Spelling) {o o' : Owner}

/-! ## What is compared -/

/-- What is compared of a field. -/
def field (f : Field TypeRef) : Field TypeRef :=
  { f with name := σ.name f.name, fullName := f.fullName.map σ.name, annotations := [] }

/-- What is compared of a method. -/
def method (f : Method TypeRef) : Method TypeRef :=
  { f with
    name := σ.name f.name
    fullName := f.fullName.map σ.name
    typeParams := f.typeParams.map σ.typeParam
    params := f.params.map σ.parameter
    annotations := [] }

/-- What is compared of a constant. -/
def enumMember (f : EnumMember) : EnumMember :=
  { f with
    name := σ.name f.name, fullName := f.fullName.map σ.name, value? := none, annotations := [] }

/-- What is compared of the members of a declaration. -/
def members (ms : Members) : Members where
  fields := ms.fields.map σ.field
  methods := ms.methods.map σ.method
  enumMembers := ms.enumMembers.map σ.enumMember

/-- What is compared of what has been read. -/
def harvest (h : Harvest) : Harvest where
  comments := h.comments
  members := σ.members h.members

/-! ## Machines together -/

/-- What is compared of a machine.  Imports are left out. -/
def extractor : Extractor → Extractor
  | .field m => .field (σ.fieldMachine m)
  | .method m => .method (σ.methodMachine m)
  | .enumMember m => .enumMember (σ.enumMemberMachine m)
  | .annotations m => .annotations (annotationMachine m)
  | e => e

/-- Whether a machine reads members, annotations or comments. -/
def OfMembers (e : Extractor) : Prop := ∀ m, e ≠ .imports m

theorem isIdle_extractor (e : Extractor) : (σ.extractor e).isIdle = e.isIdle := by
  cases e with
  | field m => cases m <;> rfl
  | method m =>
      cases m with
      | head started skip => cases started <;> cases skip <;> rfl
      | _ => rfl
  | enumMember m =>
      obtain ⟨stage, _⟩ := m
      cases stage <;> rfl
  | annotations m => cases m <;> rfl
  | comment found? => rfl
  | imports m => rfl

theorem isComplete_extractor (e : Extractor) : (σ.extractor e).isComplete = e.isComplete := by
  cases e with
  | field m => cases m <;> rfl
  | method m => cases m <;> rfl
  | enumMember m =>
      obtain ⟨stage, _⟩ := m
      cases stage <;> rfl
  | annotations m => cases m <;> rfl
  | comment found? => rfl
  | imports m => rfl

theorem isFailed_extractor (e : Extractor) : (σ.extractor e).isFailed = e.isFailed := by
  cases e with
  | field m => cases m <;> rfl
  | method m => cases m <;> rfl
  | enumMember m =>
      obtain ⟨stage, _⟩ := m
      cases stage <;> rfl
  | annotations m => cases m <;> rfl
  | comment found? => rfl
  | imports m => rfl

theorem reset_extractor (e : Extractor) :
    σ.extractor (σ.extractor e).reset = σ.extractor e.reset := by
  cases e <;> rfl

/-- A machine goes the same way over a token without its place. -/
theorem extractor_accept (h : σ.Owners o o') {e : Extractor} (he : OfMembers e) (t : TokenTree) :
    outcome σ.extractor ((σ.extractor e).accept o' (σ.tree t)) =
      outcome σ.extractor (e.accept o t) := by
  cases e with
  | field m =>
      have := field_accept σ h m t.value
      rw [← value_tree] at this
      exact congrArg (Prod.map Extractor.field id) this
  | method m => exact congrArg (Prod.map Extractor.method id) (method_accept σ h m t)
  | enumMember m => exact congrArg (Prod.map Extractor.enumMember id) (enumMember_accept σ h m t)
  | annotations m =>
      have := annotation_accept σ o.language m t
      rw [← h.language] at this
      exact congrArg (Prod.map Extractor.annotations id) (this.trans (by rw [h.language]))
  | comment found? =>
      simp only [extractor, Extractor.accept, kind_tree]
      by_cases hkind : t.value.kind = .comment
      · rw [text_tree, text_token (by rw [hkind]; rfl) (by rw [hkind]; decide)]
      · rw [if_neg (by simpa using hkind), if_neg (by simpa using hkind)]
  | imports m => exact absurd rfl (he m)

/-! ## Delivery -/

theorem members_members (ms : Members) : σ.members (σ.members ms) = σ.members ms := by
  simp [members, field, method, enumMember, typeParam, parameter, σ.name_name,
    Function.comp_def]

theorem harvest_harvest (h : Harvest) : σ.harvest (σ.harvest h) = σ.harvest h := by
  simp only [harvest, members_members]

theorem harvest_addField (ho : σ.Owners o o') (h : Harvest) (d : FieldDraft) :
    σ.harvest ((σ.harvest h).addField o' (σ.fieldDraft d)) = σ.harvest (h.addField o d) := by
  have hmembers := members_members σ h.members
  simp only [members, Members.mk.injEq] at hmembers
  obtain ⟨hfields, hmethods, henumMembers, -⟩ := hmembers
  simp [harvest, members, Harvest.addField, Harvest.dropPending, hfields, hmethods, henumMembers,
    field, FieldDraft.field, fieldDraft, Owner.memberName, ho.fullName, σ.name_name]

theorem harvest_addMethod (ho : σ.Owners o o') (h : Harvest) (d : MethodDraft) :
    σ.harvest ((σ.harvest h).addMethod o' (σ.methodDraft d)) = σ.harvest (h.addMethod o d) := by
  have hmembers := members_members σ h.members
  simp only [members, Members.mk.injEq] at hmembers
  obtain ⟨hfields, hmethods, henumMembers, -⟩ := hmembers
  simp [harvest, members, Harvest.addMethod, Harvest.dropPending, hfields, hmethods, henumMembers,
    method, MethodDraft.method, MethodDraft.defaultReturnType, methodDraft, Owner.memberName,
    ho.fullName, ho.name, σ.name_name, typeParam, parameter, Function.comp_def]

theorem harvest_addEnumMember (ho : σ.Owners o o') (h : Harvest) (d : EnumMemberDraft) :
    σ.harvest ((σ.harvest h).addEnumMember o' (σ.enumMemberDraft d)) =
      σ.harvest (h.addEnumMember o d) := by
  have hmembers := members_members σ h.members
  simp only [members, Members.mk.injEq] at hmembers
  obtain ⟨hfields, hmethods, henumMembers, -⟩ := hmembers
  simp [harvest, members, Harvest.addEnumMember, Harvest.dropPending, hfields, hmethods,
    henumMembers, enumMember, EnumMemberDraft.enumMember, enumMemberDraft, Owner.memberName,
    ho.fullName, σ.name_name]

/-- What has been delivered is the same. -/
theorem harvest_deliver (ho : σ.Owners o o') (h : Harvest) {e : Extractor} (he : OfMembers e) :
    σ.harvest ((σ.extractor e).deliver o' (σ.harvest h)) = σ.harvest (e.deliver o h) := by
  cases e with
  | field m =>
      cases m with
      | complete d => exact harvest_addField σ ho h d
      | _ => exact harvest_harvest σ h
  | method m =>
      cases m with
      | complete d => exact harvest_addMethod σ ho h d
      | _ => exact harvest_harvest σ h
  | enumMember m =>
      obtain ⟨stage, listEnded⟩ := m
      cases stage with
      | complete d => exact harvest_addEnumMember σ ho h d
      | _ => exact harvest_harvest σ h
  | annotations m =>
      cases m with
      | complete found => exact harvest_harvest σ h
      | _ => exact harvest_harvest σ h
  | comment found? =>
      cases found? with
      | none => exact harvest_harvest σ h
      | some text => simp [extractor, Extractor.deliver, harvest, members_members]
  | imports m => exact absurd rfl (he m)

/-! ## Offers -/

variable {t t' : TokenTree} {e e' : Extractor} {h h' : Harvest}

theorem Owners.self (ho : σ.Owners o o') : σ.Owners o' o' :=
  ⟨rfl, by rw [ho.language, ho.typeFirst], rfl, rfl⟩

theorem ofMembers_accept (he : OfMembers e) (t : TokenTree) : OfMembers (e.accept o t).state := by
  intro m
  cases e with
  | comment found? =>
      rw [Extractor.accept]
      split <;> exact Extractor.noConfusion
  | imports m => exact absurd rfl (he m)
  | _ => exact Extractor.noConfusion

theorem ofMembers_reset (he : OfMembers e) : OfMembers e.reset := by
  intro m
  cases e with
  | imports m => exact absurd rfl (he m)
  | _ => exact Extractor.noConfusion

theorem ofMembers_congr (hee : σ.extractor e' = σ.extractor e) (he : OfMembers e) :
    OfMembers e' := by
  rintro m rfl
  cases e with
  | imports m => exact he m rfl
  | _ => cases hee

/-- What is compared of a machine, of the harvest and of the answer after an offer. -/
def offered (r : Extractor × Harvest × Bool) : Extractor × Harvest × Bool :=
  (σ.extractor r.1, σ.harvest r.2.1, r.2.2)

section

variable (ho : σ.Owners o o') (ht : σ.tree t' = σ.tree t)

include ho

theorem accept_congr (ht : σ.tree t' = σ.tree t) (he : OfMembers e)
    (hee : σ.extractor e' = σ.extractor e) :
    outcome σ.extractor (e'.accept o' t') = outcome σ.extractor (e.accept o t) := by
  rw [← extractor_accept σ ho.self (ofMembers_congr σ hee he) t', hee, ht,
    extractor_accept σ ho he t]

theorem deliver_congr (he : OfMembers e) (hee : σ.extractor e' = σ.extractor e)
    (hh : σ.harvest h' = σ.harvest h) :
    σ.harvest (e'.deliver o' h') = σ.harvest (e.deliver o h) := by
  rw [← harvest_deliver σ ho.self h' (ofMembers_congr σ hee he), hee, hh,
    harvest_deliver σ ho h he]

include ht

/-- An offer goes the same way. -/
theorem offered_congr (again : Nat) (he : OfMembers e) (hee : σ.extractor e' = σ.extractor e)
    (hh : σ.harvest h' = σ.harvest h) :
    offered σ (e'.offerUpTo o' t' again h') = offered σ (e.offerUpTo o t again h) := by
  induction again using Nat.strong_induction_on generalizing e e' h h' with
  | _ again ih =>
      obtain ⟨hstate, htaken⟩ := Prod.mk.inj (accept_congr σ ho ht he hee)
      have hreset : σ.extractor (e'.accept o' t').state.reset =
          σ.extractor (e.accept o t).state.reset := by
        rw [← reset_extractor, hstate, reset_extractor]
      have hfailed : (e'.accept o' t').state.isFailed = (e.accept o t).state.isFailed := by
        rw [← isFailed_extractor σ, hstate, isFailed_extractor]
      have hcomplete : (e'.accept o' t').state.isComplete = (e.accept o t).state.isComplete := by
        rw [← isComplete_extractor σ, hstate, isComplete_extractor]
      have hidle : e'.isIdle = e.isIdle := by
        rw [← isIdle_extractor σ, hee, isIdle_extractor]
      have hcount : σ.harvest (h'.countOffer (e'.accept o' t').malformed) =
          σ.harvest (h.countOffer (e.accept o t).malformed) := hh
      have hdeliver := deliver_congr σ ho (ofMembers_accept he t) hstate hcount
      have hretry : ∀ k < again, ∀ g g', σ.harvest g' = σ.harvest g →
          offered σ ((e'.accept o' t').state.reset.offerUpTo o' t' k g') =
            offered σ ((e.accept o t).state.reset.offerUpTo o t k g) :=
        fun k hk g g' hg => ih k hk (ofMembers_reset (ofMembers_accept he t)) hreset hg
      rcases again with _ | again <;> unfold Extractor.offerUpTo <;>
        simp only [hfailed, hcomplete, hidle, htaken] <;>
        cases (e.accept o t).state.isFailed <;> cases (e.accept o t).state.isComplete <;>
        cases e.isIdle <;> cases (e.accept o t).taken <;>
        simp only [Bool.false_eq_true, if_true, if_false]
      all_goals first
        | exact hretry again (Nat.lt_succ_self again) _ _ hdeliver
        | exact hretry again (Nat.lt_succ_self again) _ _ hcount
        | exact congrArg₂ (fun e h => (e, h, _)) hreset hdeliver
        | exact congrArg₂ (fun e h => (e, h, _)) hreset hcount
        | exact congrArg₂ (fun e h => (e, h, _)) hstate hcount

end

theorem ofMembers_offerUpTo (again : Nat) (he : OfMembers e) (h : Harvest) :
    OfMembers (e.offerUpTo o t again h).1 := by
  have hstate := ofMembers_accept (o := o) he t
  have hreset := ofMembers_reset hstate
  induction again using Nat.strong_induction_on generalizing e h with
  | _ again ih =>
      have hretry : ∀ k < again, ∀ g,
          OfMembers ((e.accept o t).state.reset.offerUpTo o t k g).1 := fun k hk g =>
        ih k hk hreset g (ofMembers_accept hreset t) (ofMembers_reset (ofMembers_accept hreset t))
      rcases again with _ | again <;> unfold Extractor.offerUpTo <;> dsimp only <;>
        cases (e.accept o t).state.isFailed <;> cases (e.accept o t).state.isComplete <;>
        cases e.isIdle <;> cases (e.accept o t).taken <;>
        simp only [Bool.false_eq_true, if_true, if_false]
      all_goals first
        | exact hretry again (Nat.lt_succ_self again) _
        | exact hreset
        | exact hstate

/-! ## Runs of tokens -/

variable {es es' : List Extractor}

/-- Machines with a harvest that differ at most in what the layout may change. -/
structure Abreast (es es' : List Extractor) (h h' : Harvest) : Prop where
  /-- They read members, annotations and comments. -/
  ofMembers : ∀ e ∈ es, OfMembers e
  /-- The machines are in the same states. -/
  machines : es'.map σ.extractor = es.map σ.extractor
  /-- The same has been read. -/
  harvest : σ.harvest h' = σ.harvest h

variable (ho : σ.Owners o o') (ht : σ.tree t' = σ.tree t)

include ho

include ht in
theorem offerAll_congr (hs : Abreast σ es es' h h') :
    Abreast σ (Extractor.offerAll o t es h).1 (Extractor.offerAll o' t' es' h').1
        (Extractor.offerAll o t es h).2.1 (Extractor.offerAll o' t' es' h').2.1 ∧
      (Extractor.offerAll o' t' es' h').2.2 = (Extractor.offerAll o t es h).2.2 := by
  induction es generalizing es' h h' with
  | nil =>
      obtain rfl : es' = [] := by simpa using hs.machines
      exact ⟨hs, rfl⟩
  | cons e es ih =>
      obtain ⟨e', es', rfl⟩ : ∃ e' rest, es' = e' :: rest := by
        cases es' with
        | nil => exact absurd hs.machines (by simp)
        | cons e' es' => exact ⟨e', es', rfl⟩
      obtain ⟨hmachine, hmachines⟩ := List.cons_eq_cons.1 hs.machines
      have he := hs.ofMembers e (by simp)
      have hoffer := offered_congr σ ho ht 1 he hmachine hs.harvest
      simp only [offered, Prod.mk.injEq] at hoffer
      obtain ⟨hstate, hharvest, htaken⟩ := hoffer
      have habreast : Abreast σ es es' (e.offer o t h).2.1 (e'.offer o' t' h').2.1 :=
        ⟨fun e he => hs.ofMembers e (by simp [he]), hmachines, hharvest⟩
      obtain ⟨hrest, hlater⟩ := ih habreast
      rw [Extractor.offerAll, Extractor.offerAll]
      refine ⟨⟨?_, ?_, hrest.harvest⟩, congrArg₂ (· || ·) htaken hlater⟩
      · intro x hx
        rcases List.mem_cons.1 hx with rfl | hx
        · exact ofMembers_offerUpTo 1 he h
        · exact hrest.ofMembers x hx
      · exact congrArg₂ List.cons hstate hrest.machines

include ht in
theorem read_congr (hs : Abreast σ es es' h h') :
    Abreast σ (Extractor.read o es h t).1 (Extractor.read o' es' h' t').1
      (Extractor.read o es h t).2 (Extractor.read o' es' h' t').2 := by
  obtain ⟨hall, htaken⟩ := offerAll_congr σ ho ht hs
  have hblock : t'.value.isBlock '\x7b' = t.value.isBlock '\x7b' := by
    rw [← isBlock_token (σ := σ), ← value_tree, ht, value_tree, isBlock_token]
  refine ⟨hall.ofMembers, hall.machines, ?_⟩
  simp only [Extractor.read, htaken, hblock]
  split
  · exact congrArg (fun h : Harvest => { h with comments := [] }) hall.harvest
  · exact hall.harvest

theorem readAll_congr {ts ts' : List TokenTree} (hts : ts'.map σ.tree = ts.map σ.tree)
    (hs : Abreast σ es es' h h') :
    Abreast σ (Extractor.readAll o es h ts).1 (Extractor.readAll o' es' h' ts').1
      (Extractor.readAll o es h ts).2 (Extractor.readAll o' es' h' ts').2 := by
  induction ts generalizing ts' es es' h h' with
  | nil =>
      obtain rfl : ts' = [] := by simpa using hts
      exact hs
  | cons t ts ih =>
      obtain ⟨t', ts', rfl⟩ : ∃ t' rest, ts' = t' :: rest := by
        cases ts' with
        | nil => exact absurd hts (by simp)
        | cons t' ts' => exact ⟨t', ts', rfl⟩
      obtain ⟨hhead, htail⟩ := List.cons_eq_cons.1 hts
      have hrest := ih htail (read_congr σ ho hhead hs)
      exact hrest

omit ho in
theorem ofMembers_bodyEnd (he : OfMembers e) : OfMembers (e.bodyEnd o) := by
  intro m
  cases e with
  | imports m => exact absurd rfl (he m)
  | _ => exact Extractor.noConfusion

theorem bodyEnd_extractor (e : Extractor) :
    σ.extractor ((σ.extractor e).bodyEnd o') = σ.extractor (e.bodyEnd o) := by
  cases e with
  | field m =>
      have hfield : ∀ {o : Owner}, o.language.memberOrder = .typeFirst → ∀ m : FieldMachine,
          m.bodyEnd o = m := by
        intro o hl m
        cases m <;> simp only [FieldMachine.bodyEnd, hl]
      simp only [extractor, Extractor.bodyEnd, hfield ho.typeFirst, hfield (ho.self σ).typeFirst,
        fieldMachine_fieldMachine]
  | method m =>
      have hmethod : ∀ {o : Owner}, o.language.memberOrder = .typeFirst → ∀ m : MethodMachine,
          m.bodyEnd o = m := by
        intro o hl m
        cases m <;> simp only [MethodMachine.bodyEnd, hl]
      simp only [extractor, Extractor.bodyEnd, hmethod ho.typeFirst, hmethod (ho.self σ).typeFirst,
        methodMachine_methodMachine]
  | enumMember m =>
      obtain ⟨stage, listEnded⟩ := m
      cases stage <;> simp only [extractor, Extractor.bodyEnd, EnumMemberMachine.bodyEnd,
        enumMemberMachine_mk, enumMemberStage, enumMemberDraft_enumMemberDraft]
  | annotations m => cases m <;> rfl
  | comment found? => rfl
  | imports m => rfl

theorem close_congr (he : OfMembers e) (hee : σ.extractor e' = σ.extractor e)
    (hh : σ.harvest h' = σ.harvest h) :
    σ.harvest (Extractor.close o' h' e') = σ.harvest (Extractor.close o h e) := by
  refine deliver_congr σ ho (ofMembers_bodyEnd he) ?_ hh
  rw [← bodyEnd_extractor σ (ho.self σ) e', hee, bodyEnd_extractor σ ho e]

theorem foldl_close_congr (hs : Abreast σ es es' h h') :
    σ.harvest (es'.foldl (Extractor.close o') h') = σ.harvest (es.foldl (Extractor.close o) h) := by
  induction es generalizing es' h h' with
  | nil =>
      obtain rfl : es' = [] := by simpa using hs.machines
      exact hs.harvest
  | cons e es ih =>
      obtain ⟨e', es', rfl⟩ : ∃ e' rest, es' = e' :: rest := by
        cases es' with
        | nil => exact absurd hs.machines (by simp)
        | cons e' es' => exact ⟨e', es', rfl⟩
      obtain ⟨hmachine, hmachines⟩ := List.cons_eq_cons.1 hs.machines
      rw [List.foldl_cons, List.foldl_cons]
      exact ih ⟨fun e he => hs.ofMembers e (by simp [he]), hmachines,
        close_congr σ ho (hs.ofMembers e (by simp)) hmachine hs.harvest⟩

/-- What is read from a run of tokens is the same. -/
theorem run_congr {ts ts' : List TokenTree} (hts : ts'.map σ.tree = ts.map σ.tree)
    (hes : ∀ e ∈ es, OfMembers e) :
    σ.harvest (Extractor.run o' es ts') = σ.harvest (Extractor.run o es ts) :=
  foldl_close_congr σ ho (readAll_congr σ ho hts ⟨hes, rfl, rfl⟩)

/-- The members of a body are the same. -/
theorem members_ofBody (kind : DeclarationKind) {ts ts' : List TokenTree}
    (hts : ts'.map σ.tree = ts.map σ.tree) :
    σ.members (Members.ofBody o' kind ts').members =
      σ.members (Members.ofBody o kind ts).members := by
  have hextractors : ∀ e ∈ Members.extractors o.language kind, OfMembers e := by
    have hall : ∀ e, e ∈ Members.extractors o.language kind →
        e = .field .idle ∨ e = .method .idle ∨ e = .enumMember {} ∨ e = .annotations .idle ∨
          e = .comment none := by
      intro e he
      simp only [Members.extractors, List.mem_append] at he
      grind
    rintro e he m rfl
    simpa using hall _ he
  have hrun := run_congr σ ho hts hextractors
  simp only [Members.ofBody, ho.language]
  exact congrArg Harvest.members hrun

end Outline.Spelling

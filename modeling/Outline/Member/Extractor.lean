import Outline.Member.EnumMemberMachine
import Outline.Member.FieldMachine
import Outline.Member.ImportMachine
import Outline.Member.MethodMachine
import Outline.Unit.Metrics

/-!
# Extracting members

The machines that read fields, methods, constants, annotations, comments and imports all watch
the same run of sibling tokens.  Every token is offered to each of them in turn.

* A machine that reaches the end of its item without using the token up, or that fails part way
  without using it up, is offered the token once more from its idle state.
* Annotations and comments wait for the next member that ends.  They are dropped at a block in
  braces that no machine takes, since it belongs to another declaration.
* At the end of the run a machine may complete the item that it is reading.
-/

namespace Outline

/-! ## Results -/

/-- The members that are read from the body of a declaration. -/
structure Members where
  /-- The fields and properties. -/
  fields : List (Field TypeRef) := []
  /-- The methods and constructors. -/
  methods : List (Method TypeRef) := []
  /-- The constants. -/
  enumMembers : List EnumMember := []
  /-- The imports. -/
  imports : List Import := []
  deriving Repr

/-- What has been read from a run of tokens. -/
structure Harvest where
  /-- The annotations that wait for the next member. -/
  annotations : List Annotation := []
  /-- The comments that wait for the next member. -/
  comments : List String := []
  /-- The members. -/
  members : Members := {}
  /-- The texts in the place of a type that are none. -/
  malformed : List MalformedType := []
  /-- The work done. -/
  metrics : Metrics := {}
  deriving Repr

namespace Harvest

/-- Drops the annotations and comments that wait. -/
def dropPending (h : Harvest) : Harvest := { h with annotations := [], comments := [] }

/-- Counts an offer and notes its malformed types. -/
def countOffer (h : Harvest) (malformed : List MalformedType) : Harvest :=
  { h with
    malformed := h.malformed ++ malformed
    metrics := { h.metrics with offers := h.metrics.offers + 1 } }

/-- Counts an item that is given up part way. -/
def countAbandoned (h : Harvest) : Harvest :=
  { h with metrics := { h.metrics with abandoned := h.metrics.abandoned + 1 } }

/-- Adds a field, which takes what waits for it. -/
def addField (h : Harvest) (o : Owner) (d : FieldDraft) : Harvest :=
  { h.dropPending with
    members := { h.members with
      fields := h.members.fields ++ [d.field o h.annotations h.comments] } }

/-- Adds a method, which takes what waits for it. -/
def addMethod (h : Harvest) (o : Owner) (d : MethodDraft) : Harvest :=
  { h.dropPending with
    members := { h.members with
      methods := h.members.methods ++ [d.method o h.annotations h.comments] } }

/-- Adds a constant, which takes what waits for it. -/
def addEnumMember (h : Harvest) (o : Owner) (d : EnumMemberDraft) : Harvest :=
  { h.dropPending with
    members := { h.members with
      enumMembers := h.members.enumMembers ++ [d.enumMember o h.annotations h.comments] } }

/-- Adds an import. -/
def addImport (h : Harvest) (l : Language) (d : ImportDraft) : Harvest :=
  { h with
    members := { h.members with imports := h.members.imports ++ (d.import? l).toList } }

end Harvest

/-! ## Annotations and comments -/

/-- The state of the machine that reads annotations. -/
inductive AnnotationMachine where
  /-- Nothing is read. -/
  | idle
  /-- The at sign is read, the name comes next. -/
  | name
  /-- The name is read, arguments may follow. -/
  | arguments (name : String)
  /-- The annotations have ended. -/
  | complete (found : List Annotation)
  /-- There are no annotations. -/
  | failed
  deriving Repr

namespace AnnotationMachine

/-- Offers a token to the machine.  Comments are left for others. -/
def accept (l : Language) (m : AnnotationMachine) (t : TokenTree) : Step AnnotationMachine :=
  if t.kind == .comment then .leave m
  else match l.annotationStyle, m with
    | .bracketed, idle =>
      let found := if t.value.isBlock '[' then Annotation.ofBrackets t else []
      if found.isEmpty then .leave idle else .take (complete found)
    | .atSign, idle => if t.value.isSeparator "@" then .take name else .leave idle
    | .atSign, name => if t.kind == .identifier then .take (arguments t.text) else .leave failed
    | .atSign, arguments n =>
      if t.value.isBlock '(' then .take (complete [⟨n, Annotation.argumentsOf t⟩])
      else .leave (complete [⟨n, []⟩])
    | _, m => .leave m

/-- The end of the tokens, which also ends an annotation whose name is read. -/
def bodyEnd : AnnotationMachine → AnnotationMachine
  | arguments n => complete [⟨n, []⟩]
  | m => m

end AnnotationMachine

/-! ## Machines -/

/-- The state of one of the machines. -/
inductive Extractor where
  /-- The machine that reads fields. -/
  | field (m : FieldMachine)
  /-- The machine that reads methods. -/
  | method (m : MethodMachine)
  /-- The machine that reads constants. -/
  | enumMember (m : EnumMemberMachine)
  /-- The machine that reads annotations. -/
  | annotations (m : AnnotationMachine)
  /-- The machine that reads comments, with the text of the comment that is read. -/
  | comment (found? : Option String)
  /-- The machine that reads imports. -/
  | imports (m : ImportMachine)
  deriving Repr

namespace Extractor

/-- What the machine reads. -/
def name : Extractor → String
  | field _ => "field"
  | method _ => "method"
  | enumMember _ => "enum member"
  | annotations _ => "annotation"
  | comment _ => "comment"
  | imports _ => "import"

/-- Whether nothing is read. -/
def isIdle : Extractor → Bool
  | field m => m.isIdle
  | method m => m.isIdle
  | enumMember m => m.isIdle
  | annotations .idle => true
  | annotations _ => false
  | comment found? => found?.isNone
  | imports m => m.isIdle

/-- Whether the item has ended. -/
def isComplete : Extractor → Bool
  | field m => m.isComplete
  | method m => m.isComplete
  | enumMember m => m.isComplete
  | annotations (.complete _) => true
  | annotations _ => false
  | comment found? => found?.isSome
  | imports m => m.isComplete

/-- Whether there is no item. -/
def isFailed : Extractor → Bool
  | field m => m.isFailed
  | method m => m.isFailed
  | enumMember m => m.isFailed
  | annotations .failed => true
  | annotations _ => false
  | comment _ => false
  | imports m => m.isFailed

/-- Offers a token to the machine. -/
def accept (o : Owner) (e : Extractor) (t : TokenTree) : Step Extractor :=
  match e with
  | field m => (m.accept o t.value).map field
  | method m => (m.accept o t).map method
  | enumMember m => (m.accept o t).map enumMember
  | annotations m => (m.accept o.language t).map annotations
  | comment found? =>
    if t.kind == .comment then .take (comment (some (Text.commentText t.text)))
    else .leave (comment found?)
  | imports m => (m.accept o.language t).map imports

/-- The end of the tokens. -/
def bodyEnd (o : Owner) : Extractor → Extractor
  | field m => field (m.bodyEnd o)
  | method m => method (m.bodyEnd o)
  | enumMember m => enumMember m.bodyEnd
  | annotations m => annotations m.bodyEnd
  | comment found? => comment found?
  | imports m => imports m.bodyEnd

/-- The state in which nothing is read. -/
def reset : Extractor → Extractor
  | field _ => field .idle
  | method _ => method .idle
  | enumMember m => enumMember m.reset
  | annotations _ => annotations .idle
  | comment _ => comment none
  | imports _ => imports .idle

/-- Adds the item that has ended to what has been read. -/
def deliver (o : Owner) (h : Harvest) : Extractor → Harvest
  | field (.complete d) => h.addField o d
  | method (.complete d) => h.addMethod o d
  | enumMember { stage := .complete d, .. } => h.addEnumMember o d
  | annotations (.complete found) => { h with annotations := h.annotations ++ found }
  | comment (some text) => { h with comments := h.comments ++ [text] }
  | imports (.complete d) => h.addImport o.language d
  | _ => h

/-! ## Offers -/

/-- Offers a token to a machine, and again up to `again` times while the machine has ended or
given up its item without using the token up.  Answers also whether the token is used up. -/
def offerUpTo (o : Owner) (t : TokenTree) (again : Nat) (e : Extractor) (h : Harvest) :
    Extractor × Harvest × Bool :=
  let s := e.accept o t
  let h := h.countOffer s.malformed
  if s.state.isFailed then
    let rest := s.state.reset
    if e.isIdle then (rest, h, s.taken)
    else
      let h := h.countAbandoned
      match s.taken, again with
      | false, again + 1 => offerUpTo o t again rest h
      | taken, _ => (rest, h, taken)
  else if s.state.isComplete then
    let h := s.state.deliver o h
    let rest := s.state.reset
    match s.taken, again with
    | false, again + 1 => offerUpTo o t again rest h
    | taken, _ => (rest, h, taken)
  else (s.state, h, s.taken)

/-- Offers a token to a machine, at most twice. -/
def offer (o : Owner) (t : TokenTree) (e : Extractor) (h : Harvest) :
    Extractor × Harvest × Bool :=
  e.offerUpTo o t 1 h

/-- Offers a token to each machine in turn.  Answers also whether any of them uses it up. -/
def offerAll (o : Owner) (t : TokenTree) :
    List Extractor → Harvest → List Extractor × Harvest × Bool
  | [], h => ([], h, false)
  | e :: es, h =>
    let (e, h, taken) := e.offer o t h
    let (es, h, takenLater) := offerAll o t es h
    (e :: es, h, taken || takenLater)

/-- Offers a token to each machine in turn.  A block in braces that none of them uses up belongs
to another declaration, so that nothing waits behind it. -/
def read (o : Owner) (es : List Extractor) (h : Harvest) (t : TokenTree) :
    List Extractor × Harvest :=
  let (es, h, taken) := offerAll o t es h
  (es, if !taken && t.value.isBlock '\x7b' then h.dropPending else h)

/-- Offers the tokens of a run. -/
def readAll (o : Owner) (es : List Extractor) (h : Harvest) (ts : List TokenTree) :
    List Extractor × Harvest :=
  ts.foldl (fun (es, h) t => read o es h t) (es, h)

/-- Tells a machine that the tokens have ended. -/
def close (o : Owner) (h : Harvest) (e : Extractor) : Harvest := (e.bodyEnd o).deliver o h

/-- What a list of machines reads from a run of tokens. -/
def run (o : Owner) (es : List Extractor) (ts : List TokenTree) : Harvest :=
  let (es, h) := readAll o es {} ts
  es.foldl (close o) h

end Extractor

/-! ## Members of a declaration -/

namespace Members

/-- The machines for the body of a declaration, in the order in which tokens are offered. -/
def extractors (l : Language) (kind : DeclarationKind) : List Extractor :=
  (if l.hasFieldsAndMethods kind then [.field .idle, .method .idle] else []) ++
    (if kind == .enumLike then [.enumMember {}] else []) ++
    [.annotations .idle, .comment none]

/-- Reads the members of a declaration of the given kind from the tokens of its body.  What still
waits for a member at the end is dropped. -/
def ofBody (o : Owner) (kind : DeclarationKind) (body : List TokenTree) : Harvest :=
  let h := Extractor.run o (extractors o.language kind) body
  { h with
    annotations := [], comments := []
    metrics := { h.metrics with
      fields := h.members.fields.length
      methods := h.members.methods.length
      enumMembers := h.members.enumMembers.length } }

end Members

/-- Reads the imports from a run of tokens. -/
def Import.ofTokens (l : Language) (ts : List TokenTree) : List Import :=
  (Extractor.run ⟨l, []⟩ [.imports .idle] ts).members.imports

end Outline

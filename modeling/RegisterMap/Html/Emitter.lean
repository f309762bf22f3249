import RegisterMap.Html.Description
import RegisterMap.Html.Page
import RegisterMap.Html.Script
import RegisterMap.Html.Static
import RegisterMap.Walk.Emitter

/-!
A reference to browse: an index of all nodes, a page for each of them, and the
images of their descriptions. Nodes are numbered in pre-order from the top,
which is never split. A node without a source file has that of the node around
it.
-/

namespace RegisterMap.Html

structure State where
  index : Array IndexEntry := #[]
  /-- The numbers of the nodes being visited, the innermost first. -/
  parents : List Nat := []
  /-- The source files of the nodes being visited. -/
  sources : List (Option Path) := []
  /-- The fields of the register being visited. -/
  fieldRows : Array FieldRow := #[]
  /-- The finished pages by their numbers. -/
  pages : Array (Nat × String) := #[]
  assets : FileSet := {}

abbrev HtmlM := ExportM State

/-- How descriptions are turned into markup. -/
structure Setup where
  options : HtmlOptions
  renderer : Renderer
  view : FileView

/-- A description as markup, with its images among the assets. A blank one counts
as none. -/
def describe (setup : Setup) (text : Option String) (origin : Option Path) :
    HtmlM (Option String) := do
  match text.filter fun t => !Text.allBlank t.toList with
  | none => return none
  | some text =>
    let html := promoteHeadings setup.options.headingOffset (setup.renderer.render text)
    match bundleImages setup.view origin html (← .built).assets with
    | .error e => .fail e
    | .ok (html, assets) =>
      .build fun s => { s with assets }
      return some html

/-- The source file of the innermost node being visited. -/
def State.source (s : State) : Option Path := s.sources.head?.join

/-- A node put into the index, and among the children of its parent. -/
def State.enter (s : State) (id : Nat) (e : Element) (size : Nat) : State :=
  let parent := s.parents.head?
  let entry : IndexEntry := {
    parent, children := #[], name := e.node.name, offset := e.offset, size,
    array := e.node.array.map fun shape => (shape.dimensions, shape.stride),
    fields := if e.node.kind = .reg then some [] else none }
  let index := match parent with
    | none => s.index
    | some p => s.index.modify p fun above => { above with children := above.children.push id }
  { s with index := index.push entry }

/-- The children of a container with their numbers. -/
def childRows (children : List Element) (ids : Array Nat) : List ChildRow :=
  (children.zip ids.toList).map fun (child, id) =>
    { id, offset := child.offset, ident := arrayIdent child,
      displayName := child.node.displayName? }

/-- Arrays are met as a whole. -/
def walkOptions (options : HtmlOptions) : WalkOptions := { skipAbsent := options.skipAbsent }

/-- Everything about a node. Its page is made when all below it is visited, so
that the images in it come behind theirs. -/
def visitNode (setup : Setup) (e : Element) (inside : HtmlM Unit) : HtmlM Unit := do
  let id ← .takeId
  let size ← .checked e.node.size?
  let source := e.node.source.or (← .built).source
  .build fun s => s.enter id e size
  .build fun s => { s with parents := id :: s.parents, sources := source :: s.sources }
  inside
  .build fun s => { s with parents := s.parents.tail, sources := s.sources.tail }
  let desc ← describe setup e.node.desc? source
  let s ← .built
  let page := match e.node.kind with
    | .reg => registerPage e size desc s.fieldRows.toList
    | .mem => memoryPage e size desc
    | .addrmap | .regfile =>
      containerPage e size desc
        (childRows (e.children (walkOptions setup.options))
          ((s.index[id]?.map (·.children)).getD #[]))
  .build fun s => { s with pages := s.pages.push (id, Markup.renderAll page) }
  if e.node.kind = .reg then .build fun s => { s with fieldRows := #[] }

/-- A field put into the index entry of the innermost node, if that is a
register's. -/
def State.addField (s : State) (field : IndexField) : State :=
  match s.parents.head? with
  | none => s
  | some id =>
    { s with index := s.index.modify id fun entry =>
        { entry with fields := entry.fields.map (· ++ [field]) } }

def visitField (setup : Setup) (f : Field) (access : AccessCode) : HtmlM Unit := do
  let origin := (← .built).source
  let desc ← describe setup f.desc? origin
  let encode ← (f.encode?.getD []).mapM fun value => do
    let desc ← describe setup value.desc origin
    return ({ name := value.name, value := value.value, desc } : EncodeRow)
  let field : IndexField := {
    name := f.name, lsb := f.lsb, msb := f.msb, reset := f.reset?.getD 0, access := access.word,
    encode := encode.map fun v => (v.name, v.value) }
  let row : FieldRow := {
    name := f.name, lsb := f.lsb, msb := f.msb, access := access.word, reset := f.reset?,
    displayName := f.displayName?, desc, encode }
  .build fun s => { s.addField field with fieldRows := s.fieldRows.push row }

/-- The title, made from the name of the top unless there is one. -/
def titleOf (options : HtmlOptions) (top : Node) : String :=
  options.title.getD (top.displayName?.getD top.name ++ " Reference")

def pagePath (id : Nat) : Path := Path.join ⟨"content"⟩ ⟨toString id ++ ".html"⟩

/-- All files of the reference. -/
def filesOf (options : HtmlOptions) (title : String) (s : State) : FileSet :=
  let shared : FileSet := .ofList [
    (⟨"index.html"⟩, (Markup.renderAll (indexPage title options)).toUTF8),
    (⟨"js/data.js"⟩, (indexScript s.index.toList title).toUTF8),
    (⟨"js/ralbot.js"⟩, fileOfLines scriptLines),
    (⟨"css/ralbot.css"⟩, fileOfLines styleLines)]
  let pages := s.pages.toList.map fun page => (pagePath page.1, page.2.toUTF8)
  (shared.insertAll pages).insertAll s.assets.files

def emitter (setup : Setup) : Emitter State where
  options := walkOptions setup.options
  splits := false
  initial := {}
  start _ := pure ()
  block e inside := visitNode setup e inside
  registerFile e _ inside := visitNode setup e inside
  register e _ inside := do
    let _ ← checkRegisterArray e
    visitNode setup e inside
  memory e _ := visitNode setup e (pure ())
  field f access _ := visitField setup f access
  finish context := do
    let s ← .built
    let files := filesOf setup.options (titleOf setup.options context.top) s
    .debug ("documented " ++ toString s.index.size ++ " node(s)")
    return .tree files

end RegisterMap.Html

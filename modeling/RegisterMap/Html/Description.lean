import RegisterMap.Digest.Sha256
import RegisterMap.ExportError
import RegisterMap.FileSet
import RegisterMap.Html.Markup
import RegisterMap.Html.Tag
import RegisterMap.Text.Hex

/-!
Descriptions as markup. A description is plain text, in paragraphs, or markup
already. Its headings are moved down so that they nest below those of the page,
and the images that are found among the files are put into the output under
names made from their contents.
-/

namespace RegisterMap.Html

/-- What a description is taken for. -/
inductive Renderer where
  | plainText
  | rawMarkup
deriving DecidableEq, Repr

/-- The paragraphs of a text: the runs of its trimmed lines that are not empty. -/
def paragraphs (text : List Char) : List (List (List Char)) :=
  (Text.splitAt [] ((Text.splitAt '\n' text).map Text.trim)).filter fun run => !run.isEmpty

/-- A paragraph with its lines. -/
def paragraph (lines : List (List Char)) : List Markup :=
  [.plain "p" [.text (String.ofList (Text.joinWith '\n' lines))], .lineEnd]

def plainText (text : String) : String :=
  Markup.renderAll ((paragraphs text.toList).flatMap paragraph)

def Renderer.render : Renderer → String → String
  | plainText, text => Html.plainText text
  | rawMarkup, text => text

/-- A heading some levels further down, at the sixth at most. -/
def Heading.promote (h : Heading) (levels : Nat) : Heading :=
  { h with level := min (h.level + levels) 6 }

/-- All headings of a fragment moved down; by no level, it stays as it is. -/
def promoteHeadings (levels : Nat) (html : String) : String :=
  if levels = 0 then html
  else String.ofList ((cut Heading.tag? 0 html.toList).flatMap fun
    | .char c => [c]
    | .tag h => (h.promote levels).render)

/-- The files that images are looked for among. -/
structure FileView where
  isFile : Path → Bool
  read? : Path → Option ByteArray

/-- A view in which there are no files. -/
def FileView.empty : FileView := ⟨fun _ => false, fun _ => none⟩

/-- Whether a source names another host. A single letter before the colon is a
drive. -/
def isRemote (source : List Char) : Bool :=
  let scheme := source.takeWhile (· != ':')
  if scheme.length < source.length && 1 < scheme.length then
    scheme.all fun c => c.isAlphanum || c == '+' || c == '-' || c == '.'
  else ['/', '/'].isPrefixOf source

/-- The places that an image may be at: beside the file that the description is
from, and in the working directory. -/
def candidates (source : List Char) (origin : Option Path) : List Path :=
  if source.isEmpty || isRemote source then []
  else
    let path : Path := ⟨String.ofList source⟩
    if path.isAbsolute then [path]
    else ((origin.bind Path.parent?).map (·.join path)).toList ++ [path]

def locate? (view : FileView) (origin : Option Path) (source : List Char) : Option Path :=
  (candidates source origin).find? view.isFile

/-- The name of an image in the output: the first eight digits of its digest, and
its own name. -/
def assetName (content : ByteArray) (file : Path) : String :=
  String.ofList (((Digest.sha256 content.toList).flatMap Text.hexByte).take 8) ++ "_" ++
    file.fileName?.getD ""

def assetPath (content : ByteArray) (file : Path) : Path :=
  Path.join ⟨"content"⟩ ⟨assetName content file⟩

/-- A path as the source of an image. -/
def sourceOf (p : Path) : List Char := p.text.toList.map fun c => if c = '\\' then '/' else c

/-- The tag of an image that is found, with the file it is in. -/
structure FoundImage where
  source : Source
  file : Path

def foundImage? (view : FileView) (origin : Option Path) (cs : List Char) :
    Option (FoundImage × Nat) := do
  let (source, length) ← imageSource? cs
  let file ← locate? view origin source.value
  some ({ source, file }, length)

/-- A piece of a fragment with its image, if it is one, among the assets. Of two
images under one name the first stays. -/
def bundlePiece (view : FileView) (assets : FileSet) :
    Piece FoundImage → Except ExportError (List Char × FileSet)
  | .char c => .ok ([c], assets)
  | .tag image =>
    match view.read? image.file with
    | none => .error (.io image.file)
    | some content =>
      let path := assetPath content image.file
      .ok (image.source.before ++ sourceOf path ++ image.source.after,
        assets.insertNew path content)

def bundlePieces (view : FileView) (assets : FileSet) :
    List (Piece FoundImage) → Except ExportError (List Char × FileSet)
  | [] => .ok ([], assets)
  | piece :: rest => do
    let (front, assets) ← bundlePiece view assets piece
    let (back, assets) ← bundlePieces view assets rest
    return (front ++ back, assets)

/-- A fragment with the sources of its images changed to where they are put. -/
def bundleImages (view : FileView) (origin : Option Path) (html : String) (assets : FileSet) :
    Except ExportError (String × FileSet) := do
  let (chars, assets) ← bundlePieces view assets (cut (foundImage? view origin) 0 html.toList)
  return (String.ofList chars, assets)

end RegisterMap.Html

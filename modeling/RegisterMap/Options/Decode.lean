import RegisterMap.ExportError
import RegisterMap.Options
import RegisterMap.Toml.Reader

/-!
Reading options from a configuration text. What is not given keeps its default,
and what is not known is passed over. A group of options is a table, or an array
that gives the first of them in order.
-/

namespace RegisterMap

namespace Options

/-- The options of a group by their names. -/
def group? (names : List String) : Toml → Option (List (String × Toml))
  | .table entries => some entries
  | .array items => some (names.zip items)
  | .moment => some []
  | _ => none

/-- An option, or its default where it is not given. -/
def given? (entries : List (String × Toml)) (name : String) (default : α)
    (read : Toml → Option α) : Option α :=
  match entries.lookup name with
  | none => some default
  | some v => read v

def flag? : Toml → Option Bool
  | .bool b => some b
  | _ => none

def text? : Toml → Option String
  | .text s => some s
  | _ => none

/-- A number that fits a byte. -/
def byte? : Toml → Option Nat
  | .integer (.ofNat n) => if n < 256 then some n else none
  | _ => none

def isEmptyGroup : Toml → Bool
  | .table [] => true
  | .array [] => true
  | _ => false

/-- One of some words, as a text or as the only key of a table with nothing under
it. -/
def word? (ofWord? : String → Option α) : Toml → Option α
  | .text s => ofWord? s
  | .table [(key, v)] => if isEmptyGroup v then ofWord? key else none
  | _ => none

def header? (v : Toml) : Option HeaderOptions := do
  let o : HeaderOptions := {}
  let entries ← group? ["dialect", "skip_not_present"] v
  let dialect ← given? entries "dialect" o.dialect (word? HeaderDialect.ofWord?)
  let skipAbsent ← given? entries "skip_not_present" o.skipAbsent flag?
  some { dialect, skipAbsent }

def uvm? (v : Toml) : Option UvmOptions := do
  let o : UvmOptions := {}
  let entries ← group? ["package", "skip_not_present"] v
  let package ← given? entries "package" o.package fun v => (text? v).map some
  let skipAbsent ← given? entries "skip_not_present" o.skipAbsent flag?
  some { package, skipAbsent }

def ipxact? (v : Toml) : Option IpxactOptions := do
  let o : IpxactOptions := {}
  let entries ← group? ["vendor", "library", "version", "standard", "skip_not_present"] v
  let vendor ← given? entries "vendor" o.vendor text?
  let library ← given? entries "library" o.library text?
  let version ← given? entries "version" o.version text?
  let standard ← given? entries "standard" o.standard (word? IpxactStandard.ofWord?)
  let skipAbsent ← given? entries "skip_not_present" o.skipAbsent flag?
  some { vendor, library, version, standard, skipAbsent }

def html? (v : Toml) : Option HtmlOptions := do
  let o : HtmlOptions := {}
  let entries ← group? ["title", "footer", "home_url", "heading_offset", "skip_not_present"] v
  let title ← given? entries "title" o.title fun v => (text? v).map some
  let footer ← given? entries "footer" o.footer text?
  let homeUrl ← given? entries "home_url" o.homeUrl fun v => (text? v).map some
  let headingOffset ← given? entries "heading_offset" o.headingOffset byte?
  let skipAbsent ← given? entries "skip_not_present" o.skipAbsent flag?
  some { title, footer, homeUrl, headingOffset, skipAbsent }

def all? (entries : List (String × Toml)) : Option ExportOptions := do
  let o : ExportOptions := {}
  let skipAbsent ← given? entries "skip_not_present" o.skipAbsent flag?
  let header ← given? entries "header" o.header header?
  let uvm ← given? entries "uvm" o.uvm uvm?
  let ipxact ← given? entries "ipxact" o.ipxact ipxact?
  let html ← given? entries "html" o.html html?
  some { skipAbsent, header, uvm, ipxact, html }

end Options

/-- The options that a text writes. One option for all outputs overrules what they
say about absent parts. -/
def ExportOptions.ofText (s : String) : Except ExportError ExportOptions :=
  match (Toml.ofText? s).bind Options.all? with
  | none => .error .badOptions
  | some o => .ok (if o.skipAbsent then o.skippingAbsent else o)

end RegisterMap

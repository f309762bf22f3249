/-!
What can be chosen about each output, and the defaults.
-/

namespace RegisterMap

/-- The language that a header of constants is for. -/
inductive HeaderDialect where
  | c
  | verilog
deriving DecidableEq, Repr

namespace HeaderDialect

def word : HeaderDialect → String
  | c => "c"
  | verilog => "verilog"

def all : List HeaderDialect := [c, verilog]

def ofWord? (s : String) : Option HeaderDialect := all.find? fun d => d.word == s

/-- What a directive starts with. -/
def mark : HeaderDialect → String
  | c => "#"
  | verilog => "`"

/-- The usual extension of a file name. -/
def extension : HeaderDialect → String
  | c => "h"
  | verilog => "svh"

end HeaderDialect

structure HeaderOptions where
  dialect : HeaderDialect := .c
  skipAbsent : Bool := false
deriving DecidableEq, Repr

structure UvmOptions where
  /-- The name of the package, which is made from the top's where absent. -/
  package : Option String := none
  skipAbsent : Bool := false
deriving DecidableEq, Repr

/-- The revision of the component schema. -/
inductive IpxactStandard where
  | ieee2009
  | ieee2014
deriving DecidableEq, Repr

namespace IpxactStandard

def word : IpxactStandard → String
  | ieee2009 => "ieee-1685-2009"
  | ieee2014 => "ieee-1685-2014"

def all : List IpxactStandard := [ieee2009, ieee2014]

def ofWord? (s : String) : Option IpxactStandard := all.find? fun v => v.word == s

/-- What stands before the colon in element names. -/
def space : IpxactStandard → String
  | ieee2009 => "spirit"
  | ieee2014 => "ipxact"

/-- The identity of the name space. -/
def spaceName : IpxactStandard → String
  | ieee2009 => "http://www.spiritconsortium.org/XMLSchema/SPIRIT/1685-2009"
  | ieee2014 => "http://www.accellera.org/XMLSchema/IPXACT/1685-2014"

end IpxactStandard

structure IpxactOptions where
  vendor : String := "example.org"
  library : String := "mylibrary"
  version : String := "1.0"
  standard : IpxactStandard := .ieee2014
  skipAbsent : Bool := false
deriving DecidableEq, Repr

structure HtmlOptions where
  /-- The title, which is made from the top's name where absent. -/
  title : Option String := none
  footer : String := "Generated by RALBot HTML"
  homeUrl : Option String := none
  /-- How many levels headings in descriptions go down. -/
  headingOffset : Nat := 1
  skipAbsent : Bool := true
deriving DecidableEq, Repr

structure ExportOptions where
  skipAbsent : Bool := false
  header : HeaderOptions := {}
  uvm : UvmOptions := {}
  ipxact : IpxactOptions := {}
  html : HtmlOptions := {}
deriving DecidableEq, Repr

/-- Every output passes over what is not present. -/
def ExportOptions.skippingAbsent (o : ExportOptions) : ExportOptions :=
  { o with
    skipAbsent := true
    header := { o.header with skipAbsent := true }
    uvm := { o.uvm with skipAbsent := true }
    ipxact := { o.ipxact with skipAbsent := true }
    html := { o.html with skipAbsent := true } }

end RegisterMap

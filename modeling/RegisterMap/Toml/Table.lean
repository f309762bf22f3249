import RegisterMap.Toml.Basic

/-!
The tables of a configuration while it is being read. A table may be named once
by a header, or be built up by dotted keys, but not both; a table that exists
only because one inside it was named may still be named itself.
-/

namespace RegisterMap.Toml

/-- What has made a table. -/
inductive Origin where
  /-- A header of its own. -/
  | named
  /-- The header of a table inside it. -/
  | implied
  /-- A dotted key. -/
  | dotted
deriving DecidableEq, Repr

inductive Item where
  | value (v : Toml)
  | table (origin : Origin) (entries : List (String × Item))
  /-- An array of tables, the last of which can still grow. -/
  | tables (done : List (List (String × Item))) (last : List (String × Item))

abbrev Table := List (String × Item)

namespace Table

/-- An entry put in place of the one with its key, or behind all others. -/
def put (key : String) (item : Item) : Table → Table
  | [] => [(key, item)]
  | (k, v) :: rest => if k = key then (key, item) :: rest else (k, v) :: put key item rest

/-- A change to the table that a path of headers leads to. -/
def alter (change : Table → Option Table) : List String → Table → Option Table
  | [], t => change t
  | key :: path, t =>
    match t.lookup key with
    | none => (alter change path []).map fun inner => put key (.table .implied inner) t
    | some (.table origin inner) =>
      (alter change path inner).map fun inner => put key (.table origin inner) t
    | some (.tables done last) =>
      (alter change path last).map fun last => put key (.tables done last) t
    | some (.value _) => none

/-- A table named by a header. -/
def name (key : String) (t : Table) : Option Table :=
  match t.lookup key with
  | none => some (put key (.table .named []) t)
  | some (.table .implied inner) => some (put key (.table .named inner) t)
  | _ => none

/-- One more table in an array of tables. -/
def extend (key : String) (t : Table) : Option Table :=
  match t.lookup key with
  | none => some (put key (.tables [] []) t)
  | some (.tables done last) => some (put key (.tables (done ++ [last]) []) t)
  | _ => none

/-- A value under a key that is not there yet. -/
def add (key : String) (v : Toml) (t : Table) : Option Table :=
  match t.lookup key with
  | none => some (put key (.value v) t)
  | some _ => none

/-- A value under a dotted key. All tables on the way are made by dotted keys, but
the last table of an array can be passed through. -/
def assign (v : Toml) : List String → Table → Option Table
  | [], _ => none
  | [key], t => add key v t
  | key :: next :: path, t =>
    match t.lookup key with
    | none => (assign v (next :: path) []).map fun inner => put key (.table .dotted inner) t
    | some (.table .dotted inner) =>
      (assign v (next :: path) inner).map fun inner => put key (.table .dotted inner) t
    | some (.table .implied inner) =>
      if path.isEmpty then none
      else (assign v (next :: path) inner).map fun inner => put key (.table .implied inner) t
    | some (.tables done last) =>
      if path.isEmpty then none
      else (assign v (next :: path) last).map fun last => put key (.tables done last) t
    | _ => none

end Table

mutual

def Item.toToml : Item → Toml
  | .value v => v
  | .table _ entries => .table (entriesOf entries)
  | .tables done last => .array (tablesOf done ++ [.table (entriesOf last)])

def entriesOf : List (String × Item) → List (String × Toml)
  | [] => []
  | (key, item) :: rest => (key, item.toToml) :: entriesOf rest

def tablesOf : List (List (String × Item)) → List Toml
  | [] => []
  | entries :: rest => .table (entriesOf entries) :: tablesOf rest

end

end RegisterMap.Toml

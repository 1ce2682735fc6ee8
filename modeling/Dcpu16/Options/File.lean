import Dcpu16.Options.Basic
import Dcpu16.Yaml.Mapping

/-! Options files: a mapping from the names of options to their values.  Options that are not named
have their defaults; no other name is allowed, and none twice. -/

namespace Dcpu16.Options

/-- A number that fits in a word. -/
def word? (value : Yaml.Scalar) : Option Word :=
  (value.nat?.filter (· < 0x10000)).map UInt16.ofNat

/-- The policy with a given name. -/
def redefinition? (value : Yaml.Scalar) : Option Redefinition :=
  if value.text = "warn" then some .warn
  else if value.text = "error" then some .error
  else none

/-- Set the option with a given name. -/
def set? (options : Options) (name : String) (value : Yaml.Scalar) : Option Options :=
  if name = "base_address" then (word? value).map fun v => { options with baseAddress := v }
  else if name = "keep_going" then value.bool?.map fun v => { options with keepGoing := v }
  else if name = "verbose" then value.bool?.map fun v => { options with verbose := v }
  else if name = "redefinition" then
    (redefinition? value).map fun v => { options with redefinition := v }
  else if name = "entry" then some { options with entry := value.text? }
  else none

/-- The options that entries of a mapping set. -/
def ofEntries? (entries : List (String × Yaml.Scalar)) : Option Options :=
  if (entries.map Prod.fst).Nodup then
    entries.foldlM (fun options e => options.set? e.1 e.2) {}
  else none

/-- Read an options file. -/
def ofYaml? (text : String) : Option Options :=
  (Yaml.mapping? text).bind ofEntries?

end Dcpu16.Options

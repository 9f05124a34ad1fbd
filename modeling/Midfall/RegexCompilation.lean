import Midfall.RawAutomatonInvariant
import Midfall.RegexMeanings
import Midfall.ScannerChipSound

/-!
# Compiled regular expressions

A regular expression is converted and normalised to an automaton of the scanner.
What the automaton accepts, byte by byte with its markers, are the marked words
of the expression; so are the inputs for which the chip can be satisfied.
-/

namespace Midfall.RawAutomata.RawAutomaton

open AutomatonLanguages ListLoops List
open Option (bind_eq_some_iff bind_some)
open ScannerAutomaton (alphabetMaxSize usizeBound)
open ScannerAutomaton.Automaton (lastState run_from_cons run_from_cons_some last_state_cons output_eq_some)

variable {order : HashOrder} {automaton result base : RawAutomaton}

/-! ### Flags that are true -/

section Normal

variable {normal : ScannerAutomaton.Automaton} (normalised : Normalised base normal)
  (keys : (normal.transitions.map Prod.fst).Nodup)

include normalised keys

end Normal

/-! ### Returning a normal form -/

end Midfall.RawAutomata.RawAutomaton

namespace Midfall.Regexes.Regex

open RawAutomata RawAutomata.RawAutomaton ListLoops List
open Option (bind_eq_some_iff bind_some)
open ScannerAutomaton (Automaton alphabetMaxSize usizeBound)

variable {order : HashOrder} {regex : Regex} {automaton : RawAutomaton}

mutual

/-- Hash sets of letters have no duplicates. -/
def Distinct : Regex → Prop
  | single bytes => bytes.Nodup
  | concat v => AllDistinct v
  | union v => AllDistinct v
  | inter v => AllDistinct v
  | star _ r => r.Distinct
  | complement r => r.Distinct

def AllDistinct : List Regex → Prop
  | [] => True
  | r :: v => r.Distinct ∧ AllDistinct v

end

open ScannerChip ScannerChipSound
open ScalarField (scalarModulus)

variable {LibIndex : Type} {modulus : Nat}

end Midfall.Regexes.Regex

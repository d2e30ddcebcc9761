import Ulfm.Foundation.Decimal
import Ulfm.Foundation.Grouping
import Ulfm.Nidmap.Maps
import Ulfm.Opal.PointerArray

/-!
# Lists of node names

`orte_regex_create` cuts a name into letters, a number and the rest, collects the numbers of the
names that agree in all else and prints them as ranges; `orte_regex_extract_node_names` prints all
names of such a text. `none` stands for an error and for a store outside of a text. A sum of the
numbers of a range is the exact one.
-/

namespace Ulfm.Nidmap

open List

/-- `ORTE_MAX_NODE_PREFIX`. -/
def orteMaxNodePrefix : ℕ := 50

/-- `LONG_MAX`. -/
def longMax : ℕ := 2 ^ 63 - 1

section Create

/-- `orte_regex_range_t`. -/
structure Range where
  start : ℤ
  cnt : ℕ
deriving DecidableEq

/-- `orte_regex_node_t`. -/
structure RegexNode where
  nodePrefix : Option Name
  suffix : Option Name
  numDigits : ℕ
  ranges : List Range
deriving DecidableEq

/-- The variables of the loop over the characters of a name. -/
structure NameScan where
  fullname : Bool
  startnum : Option ℕ
  nodePrefix : Name
  numDigits : ℕ
deriving DecidableEq

/-- The loop over the characters of a name, from the `i`-th on. -/
def scanName : Name → ℕ → NameScan → NameScan
  | [], _, scan => scan
  | c :: cs, i, scan =>
    if c.isAlpha then
      scanName cs (i + 1)
        (if scan.startnum.isNone then { scan with nodePrefix := scan.nodePrefix ++ [c] } else scan)
    else if c.isDigit then
      scanName cs (i + 1)
        { scan with numDigits := scan.numDigits + 1, startnum := scan.startnum.or (some i) }
    else { scan with fullname := true }

/-- `nodenum = strtol(digits)`. -/
def nodenum (digits : Name) : ℤ := Opal.toInt (min (numeral digits) longMax : ℕ)

/-- One more number at the end of the ranges. The sum is exact where the source adds `int`s. -/
def extendRanges (nodenum : ℤ) (ranges : List Range) : List Range :=
  match ranges.getLast? with
  | none => [⟨nodenum, 1⟩]
  | some range =>
    -- out of sequence
    if nodenum ≠ range.start + range.cnt then ranges ++ [⟨nodenum, 1⟩]
    else ranges.dropLast ++ [{ range with cnt := range.cnt + 1 }]

/-- A prefix in a node, which is `NULL` if it is empty. -/
def optPrefix (nodePrefix : Name) : Option Name := if nodePrefix = [] then none else some nodePrefix

/-- The search for a node with the prefix, the suffix and the number of digits. -/
def addNumber (nodePrefix suffix : Name) (numDigits : ℕ) (nodenum : ℤ) :
    List RegexNode → List RegexNode
  | [] => [⟨optPrefix nodePrefix, some suffix, numDigits, [⟨nodenum, 1⟩]⟩]
  | ndreg :: nodeids =>
    if ndreg.nodePrefix = optPrefix nodePrefix ∧ ndreg.suffix = some suffix ∧
        ndreg.numDigits = numDigits then
      { ndreg with ranges := extendRanges nodenum ndreg.ranges } :: nodeids
    else ndreg :: addNumber nodePrefix suffix numDigits nodenum nodeids

def addName (nodeids : List RegexNode) (node : Name) : Option (List RegexNode) :=
  let scan := scanName node 0 ⟨false, none, [], 0⟩
  -- a store behind the end of the buffer
  if orteMaxNodePrefix < scan.nodePrefix.length then none
  else
    match scan.fullname, scan.startnum with
    | false, some startnum =>
      -- without an end the prefix cannot be read
      if scan.nodePrefix.length = orteMaxNodePrefix then none
      else
        let field := node.drop startnum
        some (addNumber scan.nodePrefix (field.dropWhile Char.isDigit) scan.numDigits
          (nodenum (field.takeWhile Char.isDigit)) nodeids)
    | _, _ => some (nodeids ++ [⟨some node, none, 0, []⟩])

/-- `%d`. -/
def intText (x : ℤ) : List Char :=
  if x < 0 then '-' :: Nat.toDigits 10 x.natAbs else Nat.toDigits 10 x.natAbs

/-- The last number of a range is exact as well. -/
def Range.text (range : Range) : List Char :=
  if range.cnt = 1 then intText range.start
  else intText range.start ++ '-' :: intText (range.start + range.cnt - 1)

/-- What is appended to `regexargs` for a node. -/
def RegexNode.text (ndreg : RegexNode) : List (List Char) :=
  match ndreg.ranges with
  | [] => ndreg.nodePrefix.toList
  | ranges =>
    let whole := [ndreg.nodePrefix.getD [] ++ '[' :: Nat.toDigits 10 ndreg.numDigits ++ ':' ::
      [','].intercalate (ranges.map Range.text) ++ ']' :: ndreg.suffix.getD []]
    match ranges with
    | [range] =>
      if range.cnt = 1 then
        [ndreg.nodePrefix.getD [] ++ intText range.start ++ ndreg.suffix.getD []]
      else whole
    | _ => whole

/-- The names that the loop finds in the list; nothing follows a comma at the end. -/
def nodeNames (nodelist : List Char) : List Name :=
  let names := nodelist.splitOn ','
  if names.getLast? = some [] then names.dropLast else names

/-- `orte_regex_create`. -/
def orteRegexCreate (nodelist : List Char) : Option (List Char) :=
  if ',' ∉ nodelist then some nodelist
  else
    ((nodeNames nodelist).foldlM addName []).map fun nodeids =>
      [','].intercalate (nodeids.flatMap RegexNode.text)

end Create

section Extract

/-- The name with the number `i`: the digits are stored over the end of the zeros. -/
def nodeText (base : List Char) (numDigits : ℕ) (suffix : Option Name) (i : ℕ) : Option Name :=
  let tmp := Nat.toDigits 10 i
  let str := base ++ replicate numDigits '0'
  if str.length < tmp.length then none
  else some (str.take (str.length - tmp.length) ++ tmp ++ suffix.getD [])

/-- `regex_parse_node_range`. -/
def regexParseNodeRange (base : List Char) (numDigits : ℕ) (suffix : Option Name)
    (range : List Char) : Option (List Name) :=
  let first := range.dropWhile fun c => !c.isDigit
  let start := numeral (first.takeWhile Char.isDigit)
  let second := (first.dropWhile Char.isDigit).dropWhile fun c => !c.isDigit
  if first = [] then none
  -- `atoi` of a number that is no `int`
  else if Opal.intMax < start then none
  else if first.dropWhile Char.isDigit = [] then (nodeText base numDigits suffix start).map ([·])
  else if second = [] then none
  else
    let last := min (numeral (second.takeWhile Char.isDigit)) longMax
    (range' start (last + 1 - start)).mapM (nodeText base numDigits suffix)

/-- `regex_parse_node_ranges`; nothing follows a comma at the end. -/
def regexParseNodeRanges (base : List Char) (ranges : List Char) (numDigits : ℕ)
    (suffix : Option Name) : Option (List Name) :=
  let texts := ranges.splitOn ','
  ((if texts.getLast? = some [] then texts.dropLast else texts).mapM
    (regexParseNodeRange base numDigits suffix)).map flatten

/-- The loop of `orte_regex_extract_node_names`, from a base on. -/
def extractFrom : ℕ → List Char → Option (List Name)
  | 0, _ => none
  | fuel + 1, text =>
    let base := text.takeWhile fun c => c ≠ '[' ∧ c ≠ ','
    match text.dropWhile fun c => c ≠ '[' ∧ c ≠ ',' with
    | [] => if base = [] then none else some [base]
    | c :: inner =>
      if c = ',' then
        if base = [] then none else (extractFrom fuel inner).map (base :: ·)
      else
        match inner.dropWhile (· ≠ ':') with
        | [] => none
        | _ :: inner' =>
          let numDigits := numeral ((inner.takeWhile (· ≠ ':')).takeWhile Char.isDigit)
          match inner'.dropWhile (· ≠ ']') with
          | [] => none
          | _ :: rest =>
            let suffix := rest.takeWhile (· ≠ ',')
            (regexParseNodeRanges base (inner'.takeWhile (· ≠ ']')) numDigits
                (if suffix = [] then none else some suffix)).bind fun names =>
              match rest.dropWhile (· ≠ ',') with
              | [] => some names
              | _ :: more => (extractFrom fuel more).map (names ++ ·)

/-- `orte_regex_extract_node_names`; every cycle takes a name or more from the text. -/
def orteRegexExtractNodeNames (regexp : List Char) : Option (List Name) :=
  extractFrom (regexp.length + 1) regexp

end Extract

end Ulfm.Nidmap

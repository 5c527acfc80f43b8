import ScriptMachine.StringTable.Basic

/-!
# Collecting strings

A collection begins by taking every mark off, lets the holders of indices mark what they hold, and
ends by freeing each string that has neither a lock nor a mark.  Free slots at the end of the table
are dropped.
-/

namespace ScriptMachine.StringTable

/-- Begins a collection: no string is marked, and strings added from here on are. -/
def beginCollection (t : StringTable) : StringTable :=
  { t with
    collecting := true
    slots := t.slots.map (Option.map fun e => { e with marked := false }) }

/-- Marks the string at an index.  Words that name no string are ignored, so a holder may mark every
word it has. -/
def mark (t : StringTable) (i : Word) : StringTable := t.update i fun e => { e with marked := true }

/-- Marks the strings named by these words. -/
def markAll (t : StringTable) (is : List Word) : StringTable := is.foldl mark t

/-- Whether the end of a collection frees a string. -/
def dead (e : StringEntry) : Bool := e.locks == 0 && !e.marked

/-- The buckets without one string; an empty bucket goes. -/
def dropFromBucket (buckets : OrdMap Word (List Word)) (e : StringEntry) :
    OrdMap Word (List Word) :=
  match buckets.find? e.hash with
  | none => buckets
  | some is =>
    match is.filter (· != e.index) with
    | [] => buckets.erase e.hash
    | rest => buckets.insert e.hash rest

/-- The slots without the free ones at the end. -/
def trim (slots : List (Option StringEntry)) : List (Option StringEntry) :=
  (slots.reverse.dropWhile Option.isNone).reverse

/-- Ends a collection: strings with neither lock nor mark are freed.  Answers how many. -/
def endCollection (t : StringTable) : Nat × StringTable :=
  let freed := t.entries.filter dead
  let slots := t.slots.map fun s => s.filter fun e => !dead e
  let kept := (trim slots.toList).toArray
  let free := freed.foldl (fun f e => OrdSet.add f e.index) t.free
  let dropped := (List.range' kept.size (slots.size - kept.size)).map UInt32.ofNat
  (freed.length,
    { slots := kept
      buckets := freed.foldl dropFromBucket t.buckets
      free := dropped.foldl OrdMap.erase free
      collecting := false })

end ScriptMachine.StringTable

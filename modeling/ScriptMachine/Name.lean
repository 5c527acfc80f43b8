import ScriptMachine.Text.Digits

/-!
# Names of modules and scripts

A module is looked up by a name with two host-chosen numbers beside it; a script by a number or by
a text.  Both kinds of name are ordered, and the order decides how saved states and listings are
laid out: module names by text, then `aux`, then `num`; numbered scripts before named ones.  Texts
compare by code point, which is also the order of their UTF-8 bytes.
-/

namespace ScriptMachine

/-- The key of a module.  `aux` and `num` belong to the host, such as a resource handle and an
index into an archive. -/
structure ModuleName where
  name : String
  aux : Nat := 0
  num : Nat := 0
deriving DecidableEq, Inhabited

namespace ModuleName

/-- The text shown for a module: its name, with the number after a hash sign unless it is 0. -/
def display (m : ModuleName) : String :=
  if m.num = 0 then m.name else m.name ++ "#" ++ toString m.num

instance : Ord ModuleName where
  compare := compareLex (compareOn name) (compareLex (compareOn aux) (compareOn num))

instance : Std.TransOrd ModuleName :=
  inferInstanceAs <| Std.TransCmp <|
    compareLex (compareOn name) (compareLex (compareOn aux) (compareOn num))

instance : Std.LawfulEqOrd ModuleName where
  eq_of_compare {a b} h := by
    obtain ⟨n, x, k⟩ := a
    obtain ⟨n', x', k'⟩ := b
    have h : (compare n n').then ((compare x x').then (compare k k')) = .eq := h
    simp only [Ordering.then_eq_eq, Std.LawfulEqOrd.compare_eq_iff_eq] at h
    simp [h.1, h.2.1, h.2.2]

end ModuleName

/-- The name of a script: a signed number or a text. -/
inductive ScriptName where
  | number (n : Int32)
  | text (s : String)
deriving DecidableEq, Inhabited

namespace ScriptName

/-- The text shown for a script: the number in decimal, or the text between double quotes. -/
def display : ScriptName → String
  | number n => decimal n
  | text s => "\"" ++ s ++ "\""

/-- Numbers come before texts. -/
protected def compare : ScriptName → ScriptName → Ordering
  | number m, number n => Ord.compare m n
  | number _, text _ => .lt
  | text _, number _ => .gt
  | text s, text t => Ord.compare s t

instance : Ord ScriptName := ⟨ScriptName.compare⟩

instance : Std.TransOrd ScriptName where
  eq_swap {a b} :=
    match a, b with
    | number m, number n => (Std.OrientedOrd.eq_swap : Ord.compare m n = (Ord.compare n m).swap)
    | number _, text _ => rfl
    | text _, number _ => rfl
    | text s, text t => (Std.OrientedOrd.eq_swap : Ord.compare s t = (Ord.compare t s).swap)
  isLE_trans {a b c} :=
    match a, b, c with
    | number m, number n, number k =>
      (Std.TransOrd.isLE_trans :
        (Ord.compare m n).isLE → (Ord.compare n k).isLE → (Ord.compare m k).isLE)
    | number _, _, text _ => fun _ _ => rfl
    | number _, text _, number _ => fun _ h => nomatch h
    | text _, number _, _ => fun h => nomatch h
    | text _, text _, number _ => fun _ h => nomatch h
    | text s, text t, text u =>
      (Std.TransOrd.isLE_trans :
        (Ord.compare s t).isLE → (Ord.compare t u).isLE → (Ord.compare s u).isLE)

instance : Std.LawfulEqOrd ScriptName where
  eq_of_compare {a b} :=
    match a, b with
    | number m, number n => fun (h : Ord.compare m n = .eq) =>
      congrArg number (Std.LawfulEqOrd.eq_of_compare h)
    | number _, text _ => fun h => nomatch h
    | text _, number _ => fun h => nomatch h
    | text s, text t => fun (h : Ord.compare s t = .eq) =>
      congrArg text (Std.LawfulEqOrd.eq_of_compare h)

end ScriptName

end ScriptMachine

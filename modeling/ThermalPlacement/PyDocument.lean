/-
# Documents and the texts in them

`Yaml` is a document as `yaml.safe_load` returns it, with the operations a script
applies to a value of unknown type: its truth value, iteration and `str()`.

`PyStr` stands for the text operations whose tables are not spelled out here: lower-casing
outside ASCII and the text of a list or dictionary.  On ASCII texts lower-casing is known
(`lower_ascii`), and it is idempotent there (`lower_lower`).
-/
import ThermalPlacement.PyText
import ThermalPlacement.OrderedDict

namespace PyText

/-! ## Documents -/

/-- A loaded YAML document whose dictionaries have text keys. -/
inductive Yaml where
  | str (s : Str)
  /-- A number, boolean, date or null: its `str()` and its truth value. -/
  | scalar (text : Str) (truthy : Bool)
  | seq (items : List Yaml)
  | map (entries : List (Str × Yaml))

namespace Yaml

/-- `bool(x)`. -/
def truthy : Yaml → Bool
  | str s => !s.isEmpty
  | scalar _ b => b
  | seq items => !items.isEmpty
  | map entries => !entries.isEmpty

/-- What a loop `for item in x` runs over. -/
def iter : Yaml → Except PyError (List Yaml)
  | str s => .ok (s.map (fun c => str [c]))
  | scalar _ _ => .error .typeError
  | seq items => .ok items
  | map entries => .ok ((OrderedDict.ofList entries).keys.map str)

end Yaml

/-! ## Texts -/

/-- All characters are ASCII. -/
def IsAscii (s : Str) : Prop := ∀ c ∈ s, c.toNat < 128

instance (s : Str) : Decidable (IsAscii s) := inferInstanceAs (Decidable (∀ c ∈ s, _))

/-- `str.lower` and `str()` of a list or a dictionary. -/
class PyStr where
  lower : Str → Str
  lower_ascii : ∀ s, IsAscii s → lower s = s.map Char.toLower
  containerText : Yaml → Str

/-- Text operations that are right on ASCII texts. -/
@[reducible] def asciiStr : PyStr where
  lower s := s.map Char.toLower
  lower_ascii _ _ := rfl
  containerText _ := []

theorem toLower_ascii {c : Char} (hc : c.toNat < 128) :
    c.toLower.toNat < 128 ∧ c.toLower.toLower = c.toLower := by
  have hall : ∀ n : Fin 128, (Char.ofNat n).toLower.toNat < 128 ∧
      (Char.ofNat n).toLower.toLower = (Char.ofNat n).toLower := by decide
  have h := hall ⟨c.toNat, hc⟩
  rwa [Char.ofNat_toNat] at h

section

variable [PyStr]

/-- `str(x)`. -/
def Yaml.text : Yaml → Str
  | .str s => s
  | .scalar text _ => text
  | x => PyStr.containerText x

theorem isAscii_lower {s : Str} (hs : IsAscii s) : IsAscii (PyStr.lower s) := by
  rw [PyStr.lower_ascii s hs]
  intro c hc
  rcases List.mem_map.mp hc with ⟨d, hd, rfl⟩
  exact (toLower_ascii (hs d hd)).1

/-- Lower-casing is idempotent. -/
theorem lower_lower {s : Str} (hs : IsAscii s) : PyStr.lower (PyStr.lower s) = PyStr.lower s := by
  rw [PyStr.lower_ascii _ (isAscii_lower hs), PyStr.lower_ascii s hs, List.map_map]
  exact List.map_congr_left (fun c hc => (toLower_ascii (hs c hc)).2)

end

end PyText

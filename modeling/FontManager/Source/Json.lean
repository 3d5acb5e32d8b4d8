import FontManager.Collection.Text

inductive Json where
  | null
  | bool (b : Bool)
  | number (valuedouble : Rat)
  | string (valuestring : Str)
  | array (items : List Json)
  | object (fields : List (Str × Json))

namespace Json

mutual

def decEq : (a b : Json) → Decidable (a = b)
  | .null, .null => isTrue rfl
  | .bool b, .bool b' => decidable_of_iff (b = b') (bool.injEq b b').symm.to_iff
  | .number v, .number v' => decidable_of_iff (v = v') (number.injEq v v').symm.to_iff
  | .string v, .string v' => decidable_of_iff (v = v') (string.injEq v v').symm.to_iff
  | .array items, .array items' =>
    have := decEqItems items items'
    decidable_of_iff (items = items') (array.injEq items items').symm.to_iff
  | .object fields, .object fields' =>
    have := decEqFields fields fields'
    decidable_of_iff (fields = fields') (object.injEq fields fields').symm.to_iff
  | .null, .bool _ | .null, .number _ | .null, .string _ | .null, .array _ | .null, .object _ =>
    isFalse nofun
  | .bool _, .null | .bool _, .number _ | .bool _, .string _ | .bool _, .array _
  | .bool _, .object _ => isFalse nofun
  | .number _, .null | .number _, .bool _ | .number _, .string _ | .number _, .array _
  | .number _, .object _ => isFalse nofun
  | .string _, .null | .string _, .bool _ | .string _, .number _ | .string _, .array _
  | .string _, .object _ => isFalse nofun
  | .array _, .null | .array _, .bool _ | .array _, .number _ | .array _, .string _
  | .array _, .object _ => isFalse nofun
  | .object _, .null | .object _, .bool _ | .object _, .number _ | .object _, .string _
  | .object _, .array _ => isFalse nofun

def decEqItems : (items items' : List Json) → Decidable (items = items')
  | [], [] => isTrue rfl
  | [], _ :: _ => isFalse nofun
  | _ :: _, [] => isFalse nofun
  | a :: items, b :: items' =>
    have := decEq a b
    have := decEqItems items items'
    decidable_of_iff (a = b ∧ items = items') List.cons_eq_cons.symm

def decEqFields : (fields fields' : List (Str × Json)) → Decidable (fields = fields')
  | [], [] => isTrue rfl
  | [], _ :: _ => isFalse nofun
  | _ :: _, [] => isFalse nofun
  | (name, a) :: fields, (name', b) :: fields' =>
    have := decEq a b
    have := decEqFields fields fields'
    decidable_of_iff ((name = name' ∧ a = b) ∧ fields = fields')
      (((Prod.mk.injEq name a name' b).symm.to_iff.and Iff.rfl).trans List.cons_eq_cons.symm)

end

instance : DecidableEq Json := decEq

end Json

namespace CJson

def intMax : Int := 2147483647
def intMin : Int := -2147483648

def valueint (valuedouble : Rat) : Int :=
  max intMin (min intMax (valuedouble.num.tdiv valuedouble.den))

-- cJSON_GetObjectItem and its siblings compare keys after tolower.
def sameKey (name key : Str) : Bool := name.map Char.toLower == key.map Char.toLower

def getObjectItem : Json → Str → Option Json
  | .object fields, name => (fields.find? fun f => sameKey name f.1).map (·.2)
  | _, _ => none

def children : Json → List Json
  | .array items => items
  | .object fields => fields.map (·.2)
  | _ => []

def arrayItems : Json → Option (List Json)
  | .array items => some items
  | _ => none

def stringItem (item : Json) (name : Str) : Option Str :=
  match getObjectItem item name with
  | some (.string s) => some s
  | _ => none

def numberItem (item : Json) (name : Str) : Option Rat :=
  match getObjectItem item name with
  | some (.number q) => some q
  | _ => none

def modifyFirst {β : Type} (p : β → Bool) (f : β → β) : List β → List β
  | [] => []
  | b :: bs => if p b then f b :: bs else b :: modifyFirst p f bs

def modifyObjectItem (f : Json → Json) (name : Str) : Json → Json
  | .object fields =>
    .object (modifyFirst (fun g => sameKey name g.1) (fun g => (g.1, f g.2)) fields)
  | j => j

-- The three adders give the document that cJSON_Print emits after the call: a scalar keeps the
-- linked child in memory but prints without it, and an object prints a nameless child under "".
def addItemToArray (item : Json) : Json → Json
  | .array items => .array (items ++ [item])
  | .object fields => .object (fields ++ [([], item)])
  | j => j

def addItemToObject (name : Str) (item : Json) : Json → Json
  | .object fields => .object (fields ++ [(name, item)])
  | .array items => .array (items ++ [item])
  | j => j

def deleteItemFromArray (i : Nat) : Json → Json
  | .array items => .array (items.eraseIdx i)
  | .object fields => .object (fields.eraseIdx i)
  | j => j

def deleteItemFromObject (name : Str) : Json → Json
  | .object fields => .object (fields.eraseP fun f => sameKey name f.1)
  | j => j

def replaceItemInObject (name : Str) (item : Json) : Json → Json
  | .object fields =>
    .object (modifyFirst (fun f => sameKey name f.1) (fun _ => (name, item)) fields)
  | j => j

section modifyFirst

variable {β : Type} {p : β → Bool} {f : β → β}

theorem find_modifyFirst (h : ∀ b, p b = true → p (f b) = true) (l : List β) :
    (modifyFirst p f l).find? p = (l.find? p).map f := by
  induction l with
  | nil => rfl
  | cons b l ih =>
    by_cases hb : p b = true
    · simp [modifyFirst, hb, h b hb]
    · simp [modifyFirst, hb, ih]

theorem find_modifyFirst_of_disjoint {q : β → Bool} (h : ∀ b, p b = true → q b = false)
    (h' : ∀ b, p b = true → q (f b) = false) (l : List β) :
    (modifyFirst p f l).find? q = l.find? q := by
  induction l with
  | nil => rfl
  | cons b l ih =>
    by_cases hb : p b = true
    · simp [modifyFirst, hb, h b hb, h' b hb]
    · by_cases hq : q b = true
      · simp [modifyFirst, hb, hq]
      · simp [modifyFirst, hb, hq, ih]

end modifyFirst

theorem getObjectItem_modifyObjectItem (f : Json → Json) (name : Str) (j : Json) :
    getObjectItem (modifyObjectItem f name j) name = (getObjectItem j name).map f := by
  cases j with
  | object fields =>
    have h := find_modifyFirst (p := fun g : Str × Json => sameKey name g.1)
      (f := fun g => (g.1, f g.2)) (fun _ hb => hb) fields
    simp only [getObjectItem, modifyObjectItem, h, Option.map_map]
    rfl
  | _ => rfl

theorem sameKey_ne {name name' key : Str}
    (h : sameKey name name' = false) (hk : sameKey name key = true) : sameKey name' key = false := by
  simp only [sameKey, beq_iff_eq, beq_eq_false_iff_ne] at *
  exact fun h' => h (hk.trans h'.symm)

theorem getObjectItem_addItemToObject_ne (item j : Json) {name name' : Str}
    (h : sameKey name' name = false) :
    getObjectItem (addItemToObject name item j) name' = getObjectItem j name' := by
  cases j with
  | object fields => simp [addItemToObject, getObjectItem, List.find?_append, h]
  | _ => rfl

theorem getObjectItem_replaceItemInObject_ne (item j : Json) {name name' : Str}
    (h : sameKey name name' = false) (h' : sameKey name' name = false) :
    getObjectItem (replaceItemInObject name item j) name' = getObjectItem j name' := by
  cases j with
  | object fields =>
    have hf := find_modifyFirst_of_disjoint (p := fun g : Str × Json => sameKey name g.1)
      (q := fun g => sameKey name' g.1) (f := fun _ => (name, item))
      (fun _ hb => sameKey_ne h hb) (fun _ _ => h') fields
    simp only [getObjectItem, replaceItemInObject, hf]
  | _ => rfl

theorem find_eraseP_of_disjoint {β : Type} {p q : β → Bool} (h : ∀ b, p b = true → q b = false)
    (l : List β) : (l.eraseP p).find? q = l.find? q := by
  induction l with
  | nil => rfl
  | cons b l ih =>
    by_cases hb : p b = true
    · rw [List.eraseP_cons_of_pos hb, List.find?_cons_of_neg (by simp [h b hb])]
    · rw [List.eraseP_cons_of_neg hb, List.find?_cons, List.find?_cons, ih]

theorem getObjectItem_deleteItemFromObject_ne (j : Json) {name name' : Str}
    (h : sameKey name name' = false) :
    getObjectItem (deleteItemFromObject name j) name' = getObjectItem j name' := by
  cases j with
  | object fields =>
    have hf := find_eraseP_of_disjoint (p := fun f : Str × Json => sameKey name f.1)
      (q := fun f => sameKey name' f.1) (fun _ hb => sameKey_ne h hb) fields
    simp only [getObjectItem, deleteItemFromObject, hf]
  | _ => rfl

end CJson

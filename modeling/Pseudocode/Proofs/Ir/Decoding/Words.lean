import Pseudocode.Ir.Render

/-!
Texts that can be taken off the front.

Everything in the text of a module is written behind something else and in front of something else.
`Separable` says when a way of writing loses nothing in such a place: if two texts begin with what
is written for two things, and go on with something that stops it, then the two things are the same,
and so is what follows.

Names without quotation marks, numbers and the names of types are words (`word_unique`).  A name in
quotation marks ends with the first such mark, since there is none among what is written for bytes.
The type of a pointer is written as the type of what it points at with a star behind it, so that a
type ends where there are no more stars.
-/

namespace Pseudocode.Ir

variable {xs name : List Char} {c : Char} {n m : Nat}

/-- Does the text stop a word or a type that is written in front of it? -/
def Delimits : List Char → Bool
  | [] => true
  | c :: _ => !isPlainChar c && c != '*'

/-- What is written for a thing can be taken off the front of a text, if what follows stops it. -/
def Separable {α : Type} (P : α → Prop) (stops : List Char → Bool) (write : α → List Char) : Prop :=
  ∀ ⦃a b k l⦄, P a → P b → stops k → stops l → write a ++ k = write b ++ l → a = b ∧ k = l

section

variable {α : Type} {P : α → Prop} {stops : List Char → Bool} {write : α → List Char}
  {k l : List Char}

/-- Things that are written one after another, up to something that is not written for any of
them. -/
theorem flatMap_unique (hwrite : Separable P stops write) (hnext : ∀ a k, stops (write a ++ k))
    (hk : stops k) (hl : stops l) (hkNo : ∀ a m, P a → write a ++ m ≠ k)
    (hlNo : ∀ a m, P a → write a ++ m ≠ l)
    (as bs : List α) (has : ∀ a ∈ as, P a) (hbs : ∀ b ∈ bs, P b)
    (h : as.flatMap write ++ k = bs.flatMap write ++ l) : as = bs ∧ k = l := by
  have hrest : ∀ (cs : List α) {m : List Char}, stops m → stops (cs.flatMap write ++ m) := by
    intro cs m hm
    cases cs with
    | nil => exact hm
    | cons c cs => rw [List.flatMap_cons, List.append_assoc]; exact hnext c _
  induction as generalizing bs with
  | nil =>
    cases bs with
    | nil => exact ⟨rfl, h⟩
    | cons b bs =>
      rw [List.flatMap_cons, List.append_assoc] at h
      exact absurd h.symm (hkNo b _ (hbs b List.mem_cons_self))
  | cons a as ih =>
    cases bs with
    | nil =>
      rw [List.flatMap_cons, List.append_assoc] at h
      exact absurd h (hlNo a _ (has a List.mem_cons_self))
    | cons b bs =>
      obtain ⟨ha, hasRest⟩ := List.forall_mem_cons.1 has
      obtain ⟨hb, hbsRest⟩ := List.forall_mem_cons.1 hbs
      rw [List.flatMap_cons, List.flatMap_cons, List.append_assoc, List.append_assoc] at h
      obtain ⟨hab, hmore⟩ := hwrite ha hb (hrest as hk) (hrest bs hl) h
      obtain ⟨habs, hkl⟩ := ih bs hasRest hbsRest hmore
      exact ⟨by rw [hab, habs], hkl⟩

theorem preceded_unique {sep : List Char} (hwrite : Separable P stops write)
    (hsep : ∀ m, stops (sep ++ m))
    (hk : stops k) (hl : stops l) (hkNo : ∀ m, sep ++ m ≠ k) (hlNo : ∀ m, sep ++ m ≠ l)
    (as bs : List α) (has : ∀ a ∈ as, P a) (hbs : ∀ b ∈ bs, P b)
    (h : (as.flatMap fun a => sep ++ write a) ++ k = (bs.flatMap fun b => sep ++ write b) ++ l) :
    as = bs ∧ k = l := by
  have hpreceded : Separable P stops fun a => sep ++ write a := by
    intro a b k l ha hb hk hl h
    rw [List.append_assoc, List.append_assoc] at h
    exact hwrite ha hb hk hl (List.append_cancel_left h)
  refine flatMap_unique hpreceded ?_ hk hl ?_ ?_ as bs has hbs h
  · intro a m
    rw [List.append_assoc]
    exact hsep _
  · intro a m _
    rw [List.append_assoc]
    exact hkNo _
  · intro a m _
    rw [List.append_assoc]
    exact hlNo _

end

section

variable {α : Type} {P : α → Prop} {stops : List Char → Bool} {write : α → String} {k l : List Char}

theorem toList_intercalate_cons (sep a : String) (as : List String) :
    (sep.intercalate (a :: as)).toList = a.toList ++ as.flatMap fun b => sep.toList ++
    b.toList := by
  rw [String.toList_intercalate]
  induction as generalizing a with
  | nil => simp
  | cons b as ih =>
    rw [List.map_cons, List.map_cons, List.intercalate_cons_cons, ← List.map_cons, ih,
      List.flatMap_cons, List.append_assoc, List.append_assoc]

theorem joined_unique {sep : String} {close : Char}
    (hwrite : Separable P stops fun a => (write a).toList)
    (hsep : ∀ m, stops (sep.toList ++ m)) (hclose : ∀ m, stops (close :: m))
    (hother : ∀ m n, sep.toList ++ m ≠ close :: n)
    (hopen : ∀ a m n, P a → (write a).toList ++ m ≠ close :: n)
    {as bs : List α} (has : ∀ a ∈ as, P a) (hbs : ∀ b ∈ bs, P b)
    (h : (sep.intercalate (as.map write)).toList ++ close :: k =
      (sep.intercalate (bs.map write)).toList ++ close :: l) : as = bs ∧ k = l := by
  cases as with
  | nil =>
    cases bs with
    | nil => exact ⟨rfl, (List.cons.inj h).2⟩
    | cons b bs =>
      rw [List.map_cons, toList_intercalate_cons, List.append_assoc] at h
      exact absurd h.symm (hopen b _ _ (hbs b List.mem_cons_self))
  | cons a as =>
    cases bs with
    | nil =>
      rw [List.map_cons, toList_intercalate_cons, List.append_assoc] at h
      exact absurd h (hopen a _ _ (has a List.mem_cons_self))
    | cons b bs =>
      obtain ⟨ha, hasRest⟩ := List.forall_mem_cons.1 has
      obtain ⟨hb, hbsRest⟩ := List.forall_mem_cons.1 hbs
      rw [List.map_cons, List.map_cons, toList_intercalate_cons, toList_intercalate_cons,
        List.flatMap_map, List.flatMap_map, List.append_assoc, List.append_assoc] at h
      have hnext : ∀ (cs : List α) (m : List Char),
          stops ((cs.flatMap fun c => sep.toList ++ (write c).toList) ++ close :: m) := by
        intro cs m
        cases cs with
        | nil => exact hclose m
        | cons c cs =>
          rw [List.flatMap_cons, List.append_assoc, List.append_assoc]
          exact hsep _
      obtain ⟨rfl, hrest⟩ := hwrite ha hb (hnext as k) (hnext bs l) h
      obtain ⟨rfl, hkl⟩ := preceded_unique hwrite hsep (hclose k) (hclose l) (fun m => hother m k)
        (fun m => hother m l) as bs hasRest hbsRest hrest
      exact ⟨rfl, (List.cons.inj hkl).2⟩

end

/-! ### Words -/

/-- Is the text made of characters that a name may have without quotation marks? -/
def IsPlain (text : List Char) : Prop :=
  ∀ c ∈ text, isPlainChar c

/-- A word ends with the first character that is none of a word. -/
theorem word_unique {ys k l : List Char} (hxs : IsPlain xs) (hys : IsPlain ys)
    (hk : k.head?.all (!isPlainChar ·)) (hl : l.head?.all (!isPlainChar ·))
    (h : xs ++ k = ys ++ l) : xs = ys ∧ k = l := by
  have hstop : ∀ {m : List Char}, m.head?.all (!isPlainChar ·) → m.takeWhile isPlainChar = [] := by
    intro m hm
    cases m with
    | nil => rfl
    | cons c m => simp_all
  have hwords := congrArg (List.takeWhile isPlainChar) h
  rw [List.takeWhile_append_of_pos hxs, List.takeWhile_append_of_pos hys, hstop hk, hstop hl,
    List.append_nil, List.append_nil] at hwords
  subst hwords
  exact ⟨rfl, List.append_cancel_left h⟩

/-- A word does not begin with a character that is none of a word. -/
theorem word_ne_cons (hxs : IsPlain xs) (hne : xs ≠ []) (hc : isPlainChar c = false)
    (k l : List Char) : xs ++ k ≠ c :: l := by
  cases xs with
  | nil => exact absurd rfl hne
  | cons x xs =>
    intro h
    have hx := hxs x List.mem_cons_self
    rw [(List.cons.inj h).1, hc] at hx
    contradiction

theorem head?_all_of_delimits {k : List Char} (h : Delimits k) : k.head?.all (!isPlainChar ·) := by
  cases k with
  | nil => rfl
  | cons c k => simp_all [Delimits]

theorem isDigit_of_mem_repr (h : c ∈ n.repr.toList) : c.isDigit := by
  rw [Nat.toList_repr] at h
  exact Nat.isDigit_of_mem_toDigits (by decide) (by decide) h

theorem isPlain_digits (n : Nat) : IsPlain n.repr.toList := by
  intro c hc
  simp [isPlainChar, Char.isAlphanum, isDigit_of_mem_repr hc]

theorem repr_inj (h : m.repr.toList = n.repr.toList) : m = n := by
  rw [Nat.toList_repr, Nat.toList_repr] at h
  rw [← Nat.ofDigitChars_toDigits (b := 10) (n := m) (by decide) (by decide), h,
    Nat.ofDigitChars_toDigits (by decide) (by decide)]

theorem toList_int (i : Int) : (toString i).toList =
    if 0 ≤ i then i.toNat.repr.toList else '-' :: (-i).toNat.repr.toList := by
  rw [Int.toString_eq_repr, Int.repr_eq_if]
  split
  · rfl
  · rw [String.toList_append]
    rfl

theorem of_mem_int {i : Int} (h : c ∈ (toString i).toList) : c.isDigit ∨ c = '-' := by
  rw [toList_int] at h
  split at h
  · exact .inl (isDigit_of_mem_repr h)
  · rcases List.mem_cons.1 h with hc | hc
    · exact .inr hc
    · exact .inl (isDigit_of_mem_repr hc)

theorem isPlain_int (i : Int) : IsPlain (toString i).toList := by
  intro c hc
  rcases of_mem_int hc with hdigit | rfl
  · simp [isPlainChar, Char.isAlphanum, hdigit]
  · decide

theorem int_inj {i j : Int} (h : (toString i).toList = (toString j).toList) : i = j := by
  have hminus : ∀ (n : Nat) (cs : List Char), n.repr.toList ≠ '-' :: cs := by
    intro n cs heq
    have hdigit : Char.isDigit '-' := isDigit_of_mem_repr (n := n) (by simp [heq])
    exact absurd hdigit (by decide)
  rw [toList_int, toList_int] at h
  by_cases hi : 0 ≤ i <;> by_cases hj : 0 ≤ j
  · rw [if_pos hi, if_pos hj] at h
    have := repr_inj h
    omega
  · rw [if_pos hi, if_neg hj] at h
    exact absurd h (hminus _ _)
  · rw [if_neg hi, if_pos hj] at h
    exact absurd h.symm (hminus _ _)
  · rw [if_neg hi, if_neg hj] at h
    have := repr_inj (List.cons.inj h).2
    omega

/-! ### Hexadecimal digits -/

theorem isPlainChar_hexDigit : ∀ n < 16, isPlainChar (hexDigit n) = true := by decide

theorem hexDigit_inj : ∀ m < 16, ∀ n < 16, hexDigit m = hexDigit n → m = n := by decide

theorem isPlain_hexDigits (width n : Nat) : IsPlain (hexDigits width n) := by
  induction width generalizing n with
  | zero => simp [hexDigits, IsPlain]
  | succ width ih =>
    rw [hexDigits]
    refine List.forall_mem_append.2 ⟨ih _, List.forall_mem_singleton.2 ?_⟩
    exact isPlainChar_hexDigit _ (Nat.mod_lt _ (by decide))

@[simp] theorem length_hexDigits (width n : Nat) : (hexDigits width n).length = width := by
  induction width generalizing n with
  | zero => rfl
  | succ width ih => rw [hexDigits, List.length_append, ih]; rfl

/-- Hexadecimal digits lose nothing of a number that is small enough for them. -/
theorem hexDigits_inj (width : Nat) (hm : m < Nat.pow 16 width) (hn : n < Nat.pow 16 width)
    (h : hexDigits width m = hexDigits width n) : m = n := by
  induction width generalizing m n with
  | zero =>
    have hone : Nat.pow 16 0 = 1 := rfl
    omega
  | succ width ih =>
    have hpow : Nat.pow 16 (width + 1) = 16 * Nat.pow 16 width := Nat.mul_comm _ _
    rw [hexDigits, hexDigits] at h
    obtain ⟨hhigh, hlow⟩ := List.append_inj h (by simp)
    have hdiv := ih (Nat.div_lt_of_lt_mul (hpow ▸ hm)) (Nat.div_lt_of_lt_mul (hpow ▸ hn)) hhigh
    have hmod :=
      hexDigit_inj _ (Nat.mod_lt m (by decide)) _ (Nat.mod_lt n (by decide)) (List.cons.inj hlow).1
    rw [← Nat.div_add_mod m 16, ← Nat.div_add_mod n 16, hdiv, hmod]

/-! ### Bytes -/

theorem toList_loop (bytes : ByteArray) (i : Nat) (read : List UInt8) :
    ByteArray.toList.loop bytes i read = read.reverse ++ bytes.data.toList.drop i := by
  fun_induction ByteArray.toList.loop bytes i read with
  | case1 i read h ih =>
    have hlt : i < bytes.data.toList.length := by simpa using h
    rw [ih, List.drop_eq_getElem_cons hlt]
    simp [ByteArray.get!, getElem!_pos, h]
  | case2 i read h =>
    rw [List.drop_eq_nil_of_le (by simpa using h), List.append_nil]

theorem utf8_eq_toList (text : String) : utf8 text = text.toByteArray.data.toList := by
  show ByteArray.toList.loop text.toByteArray 0 [] = _
  rw [toList_loop]
  rfl

theorem utf8_inj {s t : String} (h : utf8 s = utf8 t) : s = t := by
  rw [utf8_eq_toList, utf8_eq_toList, Array.toList_inj] at h
  exact String.toByteArray_inj.1 (ByteArray.ext h)

theorem length_utf8 (text : String) : (utf8 text).length = text.utf8ByteSize := by
  rw [utf8_eq_toList]
  rfl

theorem toNat_ofNat_byte : ∀ n < 256, (Char.ofNat n).toNat = n := by decide +kernel

theorem escapeByte_ne_mark (b : UInt8) (k l : List Char) : escapeByte b ++ k ≠ '"' :: l := by
  unfold escapeByte
  by_cases hb : isPlainByte b = true
  · rw [if_pos hb]
    intro h
    have hmark := congrArg Char.toNat (List.cons.inj h).1
    rw [toNat_ofNat_byte _ b.toNat_lt] at hmark
    simp [isPlainByte, hmark] at hb
  · rw [if_neg hb]
    intro h
    exact absurd (List.cons.inj h).1 (by decide)

theorem plainByte_ne_backslash {b : UInt8} (hb : isPlainByte b = true) :
    Char.ofNat b.toNat ≠ '\\' := by
  intro h
  have hmark := congrArg Char.toNat h
  rw [toNat_ofNat_byte _ b.toNat_lt] at hmark
  simp [isPlainByte, hmark] at hb

theorem escapeByte_separable : Separable (fun _ => True) (fun _ => true) escapeByte := by
  intro b c k l _ _ _ _ h
  unfold escapeByte at h
  by_cases hb : isPlainByte b = true <;> by_cases hc : isPlainByte c = true
  · rw [if_pos hb, if_pos hc] at h
    obtain ⟨hchar, hkl⟩ := List.cons.inj h
    have hnat := congrArg Char.toNat hchar
    rw [toNat_ofNat_byte _ b.toNat_lt, toNat_ofNat_byte _ c.toNat_lt] at hnat
    exact ⟨UInt8.toNat_inj.1 hnat, hkl⟩
  · rw [if_pos hb, if_neg hc] at h
    exact absurd (List.cons.inj h).1 (plainByte_ne_backslash hb)
  · rw [if_neg hb, if_pos hc] at h
    exact absurd (List.cons.inj h).1.symm (plainByte_ne_backslash hc)
  · rw [if_neg hb, if_neg hc] at h
    obtain ⟨hdigits, hkl⟩ := List.append_inj (List.cons.inj h).2 (by simp)
    exact ⟨UInt8.toNat_inj.1 (hexDigits_inj 2 b.toNat_lt c.toNat_lt hdigits), hkl⟩

/-- Bytes end with the first quotation mark. -/
theorem escapeBytes_unique {bs cs : List UInt8} {k l : List Char}
    (h : (escapeBytes bs).toList ++ '"' :: k = (escapeBytes cs).toList ++ '"' :: l) :
    bs = cs ∧ k = l := by
  unfold escapeBytes at h
  rw [String.toList_ofList, String.toList_ofList] at h
  obtain ⟨hbytes, hkl⟩ := flatMap_unique escapeByte_separable (fun _ _ => rfl) rfl rfl
    (fun b m _ => escapeByte_ne_mark b m k) (fun b m _ => escapeByte_ne_mark b m l) bs cs (by simp)
    (by simp) h
  exact ⟨hbytes, (List.cons.inj hkl).2⟩

/-! ### Names -/

theorem isPlain_of_isPlainName (h : isPlainName name = true) : IsPlain name := by
  cases name with
  | nil => simp [IsPlain]
  | cons c name =>
    rw [isPlainName, Bool.and_eq_true] at h
    exact List.all_eq_true.1 h.2

theorem toList_renderName (name : String) : (renderName name).toList =
    if isPlainName name.toList then
    name.toList else '"' :: ((escapeBytes (utf8 name)).toList ++ ['"']) := by
  unfold renderName
  split
  · rfl
  · rw [String.toList_append, String.toList_append]
    rfl

theorem plainName_ne_nil (h : isPlainName name = true) : name ≠ [] := by
  intro hnil
  rw [hnil] at h
  contradiction

/-- A name begins with a quotation mark or a character that a name may have without it. -/
theorem renderName_ne_cons (name : String) (hc : isPlainChar c = false) (hmark : c ≠ '"')
    (k l : List Char) : (renderName name).toList ++ k ≠ c :: l := by
  rw [toList_renderName]
  by_cases h : isPlainName name.toList = true
  · rw [if_pos h]
    exact word_ne_cons (isPlain_of_isPlainName h) (plainName_ne_nil h) hc k l
  · rw [if_neg h]
    intro heq
    exact hmark (List.cons.inj heq).1.symm

theorem renderName_separable :
    Separable (fun _ => True) Delimits fun name => (renderName name).toList := by
  intro x y k l _ _ hk hl h
  dsimp only at h
  rw [toList_renderName, toList_renderName] at h
  by_cases hx : isPlainName x.toList = true <;> by_cases hy : isPlainName y.toList = true
  · rw [if_pos hx, if_pos hy] at h
    obtain ⟨hxy, hkl⟩ :=
      word_unique (isPlain_of_isPlainName hx) (isPlain_of_isPlainName hy) (head?_all_of_delimits hk)
      (head?_all_of_delimits hl) h
    exact ⟨String.toList_inj.1 hxy, hkl⟩
  · rw [if_pos hx, if_neg hy] at h
    exact absurd h (word_ne_cons (isPlain_of_isPlainName hx) (plainName_ne_nil hx) (by decide) _ _)
  · rw [if_neg hx, if_pos hy] at h
    exact absurd h.symm
      (word_ne_cons (isPlain_of_isPlainName hy) (plainName_ne_nil hy) (by decide) _ _)
  · rw [if_neg hx, if_neg hy, List.cons_append, List.cons_append, List.append_assoc,
      List.append_assoc] at h
    obtain ⟨hbytes, hkl⟩ := escapeBytes_unique (List.cons.inj h).2
    exact ⟨utf8_inj hbytes, hkl⟩

/-! ### Types -/

/-- So many stars. -/
def stars (n : Nat) : List Char :=
  List.replicate n '*'

theorem stars_unique {k l : List Char} (hk : Delimits k) (hl : Delimits l)
    (h : stars m ++ k = stars n ++ l) : m = n ∧ k = l := by
  have hstop : ∀ {k : List Char} {n : Nat} {l : List Char}, Delimits k →
    k ≠ stars (n + 1) ++ l := by
    intro k n l hk heq
    rw [heq, stars, List.replicate_succ] at hk
    simp [Delimits] at hk
  induction m generalizing n with
  | zero =>
    cases n with
    | zero => exact ⟨rfl, h⟩
    | succ n => exact absurd h (hstop hk)
  | succ m ih =>
    cases n with
    | zero => exact absurd h.symm (hstop hl)
    | succ n =>
      obtain ⟨rfl, hkl⟩ := ih (List.cons.inj h).2
      exact ⟨rfl, hkl⟩

/-- A pointer to the type, a pointer to such a pointer, and so on. -/
def Ty.pointer (t : Ty) : Nat → Ty
  | 0 => t
  | n + 1 => (ptr t).pointer n

/-- Is the type written as a word? -/
def Ty.isScalar : Ty → Bool
  | .ptr _ => false
  | .array .. => false
  | _ => true

theorem Ty.isPlain_render {t : Ty} (h : t.isScalar = true) : IsPlain t.render.toList := by
  cases t with
  | ptr t => simp [isScalar] at h
  | array n t => simp [isScalar] at h
  | _ => exact List.all_eq_true.1 (by decide)

theorem Ty.render_inj_of_isScalar {t u : Ty} (ht : t.isScalar = true) (hu : u.isScalar = true)
    (h : t.render.toList = u.render.toList) : t = u := by
  cases t <;> cases u <;> simp_all [isScalar, render]

theorem Ty.toList_ptr (t : Ty) (n : Nat) (k : List Char) :
    (ptr t).render.toList ++ (stars n ++ k) = t.render.toList ++ (stars (n + 1) ++ k) := by
  rw [render, String.toList_append, List.append_assoc, stars, stars, List.replicate_succ]
  rfl

theorem Ty.toList_array (n : Nat) (t : Ty) (k : List Char) : (array n t).render.toList ++ k =
    '[' :: (n.repr.toList ++ (" x ".toList ++ (t.render.toList ++ ']' :: k))) := by
  rw [render, String.toList_append, String.toList_append, String.toList_append,
    String.toList_append]
  simp [Nat.toString_eq_repr]

theorem head?_all_stars {k : List Char} (hk : Delimits k) (n : Nat) :
    (stars n ++ k).head?.all (!isPlainChar ·) := by
  cases n with
  | zero => exact head?_all_of_delimits hk
  | succ n => rfl

theorem Ty.scalar_ne_bracket {t : Ty} (h : t.isScalar = true) (k l : List Char) :
    t.render.toList ++ k ≠ '[' :: l := by
  cases t <;> simp_all [isScalar, render]

/-- Two types with stars behind them. -/
theorem Ty.render_stars_unique (t u : Ty) {k l : List Char} (hk : Delimits k) (hl : Delimits l)
    (h : t.render.toList ++ (stars m ++ k) = u.render.toList ++ (stars n ++ l)) :
    t.pointer m = u.pointer n ∧ k = l := by
  -- A pointer hands its star over to what follows; what is left is a word or an array on both
  -- sides.
  induction t generalizing m n k l u with
  | ptr t ih =>
    rw [toList_ptr] at h
    exact ih u hk hl h
  | array size t ih =>
    induction u generalizing n with
    | ptr u ihu =>
      rw [toList_ptr] at h
      exact ihu h
    | array size' u _ =>
      rw [toList_array, toList_array] at h
      obtain ⟨hsize, hrest⟩ :=
        word_unique (isPlain_digits size) (isPlain_digits size') rfl rfl (List.cons.inj h).2
      obtain rfl := repr_inj hsize
      obtain ⟨rfl, hstars⟩ := ih u (m := 0) (n := 0) rfl rfl (List.append_cancel_left hrest)
      obtain ⟨rfl, hkl⟩ := stars_unique hk hl (List.cons.inj hstars).2
      exact ⟨rfl, hkl⟩
    | _ =>
      rw [toList_array] at h
      exact absurd h.symm (scalar_ne_bracket rfl _ _)
  | _ =>
    induction u generalizing n with
    | ptr u ihu =>
      rw [toList_ptr] at h
      exact ihu h
    | array size' u _ =>
      rw [toList_array] at h
      exact absurd h (scalar_ne_bracket rfl _ _)
    | _ =>
      obtain ⟨hword, hstars⟩ :=
        word_unique (isPlain_render rfl) (isPlain_render rfl) (head?_all_stars hk m)
        (head?_all_stars hl n) h
      obtain ⟨rfl, hkl⟩ := stars_unique hk hl hstars
      rw [render_inj_of_isScalar rfl rfl hword]
      exact ⟨rfl, hkl⟩

theorem Ty.render_separable : Separable (fun _ => True) Delimits fun t : Ty => t.render.toList := by
  intro t u k l _ _ hk hl h
  exact render_stars_unique t u (m := 0) (n := 0) hk hl h

/-- Does the text begin as that of a type does?  Not all words do, such as `label` and
`inbounds`. -/
def beginsType : List Char → Bool
  | 'v' :: _ => true
  | 'd' :: _ => true
  | '[' :: _ => true
  | 'i' :: c :: _ => c.isDigit
  | _ => false

theorem Ty.beginsType_render (t : Ty) (k : List Char) : beginsType (t.render.toList ++ k) := by
  induction t generalizing k with
  | ptr t ih =>
    rw [render, String.toList_append, List.append_assoc]
    exact ih _
  | array n t _ =>
    rw [toList_array]
    rfl
  | _ => rfl

end Pseudocode.Ir

/-
# The syslog message format of RFC 5424

The productions of the grammar, a predicate on texts each, down to the
characters. `Message s msg`: the text `s` is a syslog message whose MSG is
`msg`, or has no MSG and `msg` is empty.

A header has five spaces, the STRUCTURED-DATA stands between two more and
ends in a visible character. So what stands before the MSG of a message has
seven spaces at least, and a message without one does not end in a space
(`Message.spaces`).
-/
import BlenderBottle.Lib.CText
import BlenderBottle.Lib.Gregorian

namespace Syslog

open CText Gregorian

/-! ### The grammar -/

/-- `PRINTUSASCII = %d33-126` -/
def Printusascii (c : Char) : Prop := 33 ≤ c.toNat ∧ c.toNat ≤ 126

instance (c : Char) : Decidable (Printusascii c) := by unfold Printusascii; infer_instance

/-- `*PRINTUSASCII` -/
def Print (s : List Char) : Prop := ∀ c ∈ s, Printusascii c

instance (s : List Char) : Decidable (Print s) := List.decidableBAll Printusascii s

/-- `1*nPRINTUSASCII` -/
structure Printable (n : ℕ) (s : List Char) : Prop where
  pos : 1 ≤ s.length
  le : s.length ≤ n
  print : Print s

instance (n : ℕ) (s : List Char) : Decidable (Printable n s) :=
  decidable_of_iff (1 ≤ s.length ∧ s.length ≤ n ∧ Print s)
    ⟨fun h => ⟨h.1, h.2.1, h.2.2⟩, fun h => ⟨h.pos, h.le, h.print⟩⟩

/-- `NILVALUE = "-"` -/
def nilvalue : List Char := ['-']

/-- `HOSTNAME = NILVALUE / 1*255PRINTUSASCII` -/
def Hostname (s : List Char) : Prop := s = nilvalue ∨ Printable 255 s

/-- `APP-NAME = NILVALUE / 1*48PRINTUSASCII` -/
def AppName (s : List Char) : Prop := s = nilvalue ∨ Printable 48 s

/-- `PROCID = NILVALUE / 1*128PRINTUSASCII` -/
def Procid (s : List Char) : Prop := s = nilvalue ∨ Printable 128 s

/-- `MSGID = NILVALUE / 1*32PRINTUSASCII` -/
def Msgid (s : List Char) : Prop := s = nilvalue ∨ Printable 32 s

/-- `PRI = "<" PRIVAL ">"`, where `PRIVAL` is 0 to 191 without leading zeros. -/
inductive Pri : List Char → Prop
  | mk {n : ℕ} : n ≤ 191 → Pri ('<' :: (dec n ++ ['>']))

/-- `VERSION = NONZERO-DIGIT 0*2DIGIT` -/
inductive Version : List Char → Prop
  | mk {n : ℕ} : 1 ≤ n → n ≤ 999 → Version (dec n)

/-- `FULL-DATE = DATE-FULLYEAR "-" DATE-MONTH "-" DATE-MDAY` -/
inductive FullDate : List Char → Prop
  | mk {y m d : ℤ} : 0 ≤ y → y ≤ 9999 → ValidDate y (m - 1) d →
      FullDate (decZ 4 y ++ '-' :: (decZ 2 m ++ '-' :: decZ 2 d))

/-- `[TIME-SECFRAC]`, with `TIME-SECFRAC = "." 1*6DIGIT` -/
inductive Secfrac : List Char → Prop
  | none : Secfrac []
  | digits {ds : List Char} : 1 ≤ ds.length → ds.length ≤ 6 → AllDigits ds → Secfrac ('.' :: ds)

/-- `TIME-OFFSET = "Z" / ("+" / "-") TIME-HOUR ":" TIME-MINUTE` -/
inductive TimeOffset : List Char → Prop
  | z : TimeOffset ['Z']
  | num {sign : Char} {h m : ℤ} : sign = '+' ∨ sign = '-' → 0 ≤ h → h ≤ 23 → 0 ≤ m → m ≤ 59 →
      TimeOffset (sign :: (decZ 2 h ++ ':' :: decZ 2 m))

/-- `TIMESTAMP = NILVALUE / FULL-DATE "T" FULL-TIME` -/
inductive Timestamp : List Char → Prop
  | nil : Timestamp nilvalue
  | mk {date frac off : List Char} {h m s : ℤ} : FullDate date → 0 ≤ h → h ≤ 23 → 0 ≤ m → m ≤ 59 →
      0 ≤ s → s ≤ 59 → Secfrac frac → TimeOffset off →
      Timestamp (date ++ 'T' :: (decZ 2 h ++ ':' :: (decZ 2 m ++ ':' :: (decZ 2 s ++ (frac ++ off)))))

/-- `SD-NAME = 1*32PRINTUSASCII`, except `=`, `]` and the double quote. -/
structure SdName (s : List Char) : Prop where
  print : Printable 32 s
  plain : ∀ c ∈ s, c ≠ '=' ∧ c ≠ ']' ∧ c ≠ '"'

/-- `PARAM-VALUE`: the double quote, the backslash and `]` are escaped. -/
inductive ParamValue : List Char → Prop
  | nil : ParamValue []
  | plain {c : Char} {s : List Char} : c ≠ '"' → c ≠ '\\' → c ≠ ']' → ParamValue s → ParamValue (c :: s)
  | escaped {c : Char} {s : List Char} : c = '"' ∨ c = '\\' ∨ c = ']' → ParamValue s →
      ParamValue ('\\' :: c :: s)

/-- `*(SP SD-PARAM)`, with `SD-PARAM = PARAM-NAME "=" %d34 PARAM-VALUE %d34` -/
inductive SdParams : List Char → Prop
  | nil : SdParams []
  | cons {name value s : List Char} : SdName name → ParamValue value → SdParams s →
      SdParams (' ' :: (name ++ '=' :: '"' :: (value ++ '"' :: s)))

/-- `1*SD-ELEMENT`, with `SD-ELEMENT = "[" SD-ID *(SP SD-PARAM) "]"` -/
inductive SdElements : List Char → Prop
  | one {id params : List Char} : SdName id → SdParams params → SdElements ('[' :: (id ++ (params ++ [']'])))
  | cons {id params s : List Char} : SdName id → SdParams params → SdElements s →
      SdElements ('[' :: (id ++ (params ++ ']' :: s)))

/-- `STRUCTURED-DATA = NILVALUE / 1*SD-ELEMENT` -/
inductive StructuredData : List Char → Prop
  | nil : StructuredData nilvalue
  | elements {s : List Char} : SdElements s → StructuredData s

/-- `HEADER = PRI VERSION SP TIMESTAMP SP HOSTNAME SP APP-NAME SP PROCID SP MSGID` -/
inductive Header : List Char → Prop
  | mk {pri version timestamp hostname appName procid msgid : List Char} :
      Pri pri → Version version → Timestamp timestamp → Hostname hostname → AppName appName →
      Procid procid → Msgid msgid →
      Header (pri ++ (version ++ ' ' :: (timestamp ++ ' ' :: (hostname ++ ' ' :: (appName ++ ' ' ::
        (procid ++ ' ' :: msgid))))))

/-- `SYSLOG-MSG = HEADER SP STRUCTURED-DATA [SP MSG]`; the octets of `MSG`
are any. -/
inductive Message : List Char → List Char → Prop
  | noMsg {header sd : List Char} : Header header → StructuredData sd → Message (header ++ ' ' :: sd) []
  | msg {header sd msg : List Char} : Header header → StructuredData sd →
      Message (header ++ ' ' :: (sd ++ ' ' :: msg)) msg

/-- A message with a nil timestamp, msgid and structured data. -/
example : Message (['<', '1', '9', '1', '>', '1', ' ', '-', ' ', 'h', ' ', 'b', 'b', ' ', '7', ' ', '-', ' ',
    '-', ' ', 'u', 'p']) ['u', 'p'] := by
  have header : Header ['<', '1', '9', '1', '>', '1', ' ', '-', ' ', 'h', ' ', 'b', 'b', ' ', '7', ' ', '-'] :=
    .mk (.mk (n := 191) (by decide)) (.mk (n := 1) (by decide) (by decide)) .nil
      (.inr (show Printable 255 ['h'] by decide))
      (.inr (show Printable 48 ['b', 'b'] by decide))
      (.inr (show Printable 128 ['7'] by decide)) (.inl rfl)
  exact .msg header .nil

/-! ### Spaces -/

section Print

variable {s t : List Char}

@[simp] theorem print_nil : Print [] := List.forall_mem_nil _

@[simp] theorem print_cons {c : Char} : Print (c :: s) ↔ Printusascii c ∧ Print s := List.forall_mem_cons

@[simp] theorem print_append : Print (s ++ t) ↔ Print s ∧ Print t := List.forall_mem_append

theorem Print.notMem {c : Char} (h : Print s) (hc : ¬ Printusascii c) : c ∉ s := fun hm => hc (h c hm)

@[simp] theorem print_decZ (w : ℕ) (n : ℤ) : Print (decZ w n) := by
  have hdigits : ∀ k, Print (List.replicate k '0' ++ Nat.toDigits 10 n.natAbs) := by
    intro k c hc
    have hd : c.isDigit = true := by
      rcases List.mem_append.mp hc with hc | hc
      · rw [List.eq_of_mem_replicate hc]; decide
      · exact Nat.isDigit_of_mem_toDigits (by norm_num) le_rfl hc
    have := digit_toNat hd
    unfold Printusascii
    omega
  unfold decZ
  dsimp only
  split_ifs
  · exact print_cons.mpr ⟨by decide, hdigits _⟩
  · exact hdigits _

theorem Hostname.print (h : Hostname s) : Print s := by
  rcases h with rfl | h
  · decide
  · exact h.print

theorem Msgid.print (h : Msgid s) : Print s := by
  rcases h with rfl | h
  · decide
  · exact h.print

end Print

theorem Header.count_space {s : List Char} (h : Header s) : 5 ≤ s.count ' ' := by
  cases h
  simp only [List.count_append, List.count_cons_self]
  omega

theorem SdElements.getLast? {s : List Char} (h : SdElements s) : s.getLast? = some ']' := by
  induction h with
  | one _ _ => rw [← List.append_assoc, ← List.cons_append, List.getLast?_concat]
  | @cons id params s _ _ _ ih =>
    have : '[' :: (id ++ (params ++ ']' :: s)) = ('[' :: (id ++ (params ++ [']']))) ++ s := by simp
    rw [this, List.getLast?_append, ih]
    rfl

theorem StructuredData.getLast? {s : List Char} (h : StructuredData s) : ∃ c, s.getLast? = some c ∧ c ≠ ' ' := by
  cases h with
  | nil => exact ⟨'-', rfl, by decide⟩
  | elements h => exact ⟨']', h.getLast?, by decide⟩

/-- **Spaces before the MSG.** -/
theorem Message.spaces {s msg : List Char} (h : Message (s ++ msg) msg) :
    7 ≤ s.count ' ' ∨ s.getLast? ≠ some ' ' := by
  generalize ht : s ++ msg = t at h
  cases h with
  | @noMsg header sd _ hsd =>
    right
    obtain ⟨c, hc, hne⟩ := hsd.getLast?
    rw [List.append_nil] at ht
    rw [ht, List.getLast?_append, List.getLast?_cons, hc]
    simpa using hne
  | @msg header sd _ hh hsd =>
    left
    have hs : s = header ++ ' ' :: (sd ++ [' ']) := by
      refine List.append_cancel_right (?_ : s ++ msg = _ ++ msg)
      simpa using ht
    have := hh.count_space
    rw [hs]
    simp only [List.count_append, List.count_cons_self]
    omega

end Syslog

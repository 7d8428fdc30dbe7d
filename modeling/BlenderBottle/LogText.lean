/-
# `bb_nlog`: the text of a record and its memory

`bb_nlog` prints file and line and then the body into a local buffer, moving
its cursor `cp` in between, and copies what stands at the cursor into a block
that is as long as this string. Every print may write `LOG_MSG_MAX` bytes,
also the second one, which does not start at the front; and the copy always
writes `LOG_MSG_MAX` bytes, more than was asked for.

`cp` is read as a cursor into a buffer of `LOG_MSG_MAX` bytes, and
`LOG_LEN_MAX`, which no header defines, as `LOG_MSG_MAX`.
-/
import BlenderBottle.Lib.CText
import BlenderBottle.Log

namespace BlenderBottle
namespace Log

open CText

/-! ### What `bb_nlog` writes -/

/-- `"[%s, %d] "`. -/
def location (fn : List Char) (line : ℤ) : List Char := '[' :: fn ++ [',', ' '] ++ dec line ++ [']', ' ']

/-- The writes to the local buffer, the size asked of `alloc_mem`, and the
write to the block. -/
structure Stored where
  buffer : List Write
  requested : ℕ
  block : Write

/-- `body` is what the format and its arguments print. -/
def storeText (fn : List Char) (line : ℤ) (body : List Char) : Stored :=
  let first := snprintf 0 logMsgMax (location fn line)
  let cp := snprintfResult (location fn line)
  let second := snprintf cp logMsgMax body
  { buffer := [first, second]
    requested := (strAt second.bytes).length
    block := strncpy (strAt second.bytes) logMsgMax }

/-- What the record should get: its whole text, cut to the buffer, with every
write in its object. -/
structure Stored.Sound (st : Stored) (text : List Char) : Prop where
  logmsg : strAt st.block.bytes = strAt (text.take (logMsgMax - 1))
  terminated : '\x00' ∈ st.block.bytes
  buffer : ∀ w ∈ st.buffer, w.Within logMsgMax
  block : st.block.Within st.requested

section Store

variable (fn : List Char) (line : ℤ) (body : List Char)

theorem strAt_second (start : ℤ) :
    strAt (snprintf start logMsgMax body).bytes = strAt (body.take (logMsgMax - 1)) :=
  strAt_append_nul _ []

theorem length_strAt_lt : (strAt (body.take (logMsgMax - 1))).length < logMsgMax :=
  calc (strAt (body.take (logMsgMax - 1))).length
      ≤ (body.take (logMsgMax - 1)).length := (List.takeWhile_prefix _).length_le
    _ ≤ logMsgMax - 1 := List.length_take_le _ _
    _ < logMsgMax := by decide

/-- The block is written beyond the size asked for, every time. -/
theorem requested_lt : (storeText fn line body).requested < (storeText fn line body).block.bytes.length := by
  rw [storeText, length_strncpy, strAt_second]
  exact length_strAt_lt body

/-- The prints stay in the buffer just when file and line leave room for the
body. -/
theorem storeText_buffer_iff :
    (∀ w ∈ (storeText fn line body).buffer, w.Within logMsgMax) ↔
      (location fn line).length + min body.length (logMsgMax - 1) < logMsgMax := by
  have hlen : ∀ start s, (snprintf start logMsgMax s).bytes.length = min s.length (logMsgMax - 1) + 1 := by
    intro start s
    rw [snprintf, List.length_append, List.length_take, min_comm]
    rfl
  have htwo : ∀ w w' : Write, (∀ x ∈ [w, w'], x.Within logMsgMax) ↔
      w.Within logMsgMax ∧ w'.Within logMsgMax := by simp
  rw [storeText, htwo, Write.Within, Write.Within, hlen, hlen]
  simp only [snprintf, snprintfResult, logMsgMax]
  split_ifs <;> omega

theorem storeText_text (c : Call) (h : '\x00' ∉ c.body) :
    strAt (storeText fn line c.body).block.bytes = c.text := by
  have hn : '\x00' ∉ c.body.take (logMsgMax - 1) := fun hm => h (List.mem_of_mem_take hm)
  have hlt := length_strAt_lt c.body
  rw [strAt_eq_self hn] at hlt
  obtain ⟨k, hk⟩ : ∃ k, logMsgMax - (c.body.take (logMsgMax - 1)).length = k + 1 :=
    ⟨logMsgMax - (c.body.take (logMsgMax - 1)).length - 1, by omega⟩
  rw [storeText, strAt_second, strAt_eq_self hn, strncpy, List.take_of_length_le hlt.le, hk,
    List.replicate_succ, strAt_append_nul, strAt_eq_self hn, Call.text]

end Store

/-- **A record's text and its memory.** Whatever the file name, the line and
the body: the copy writes beyond the block that was asked for, so no record
gets its text soundly. The local buffer is kept to just when file, line and
body fit in it together. -/
theorem storeText_not_sound (fn : CString) (line : ℤ) (body : List Char) :
    ¬ (storeText fn.bytes line body).Sound (location fn.bytes line ++ body) ∧
      (storeText fn.bytes line body).requested < (storeText fn.bytes line body).block.bytes.length ∧
      ((∀ w ∈ (storeText fn.bytes line body).buffer, w.Within logMsgMax) ↔
        (location fn.bytes line).length + min body.length (logMsgMax - 1) < logMsgMax) := by
  have hreq := requested_lt fn.bytes line body
  refine ⟨fun h => ?_, hreq, storeText_buffer_iff fn.bytes line body⟩
  have hblock := h.block.2
  have hstart : (storeText fn.bytes line body).block.start = 0 := rfl
  omega

/-- `[a.c, 1] hi`: two bytes are asked for and 4096 written, and the record's
text is `hi`. -/
theorem storeText_short :
    (storeText ['a', '.', 'c'] 1 ['h', 'i']).requested = 2 ∧
      (storeText ['a', '.', 'c'] 1 ['h', 'i']).block.bytes.length = 4096 ∧
      ¬ (storeText ['a', '.', 'c'] 1 ['h', 'i']).block.Within 2 := by
  have hlen : (storeText ['a', '.', 'c'] 1 ['h', 'i']).block.bytes.length = 4096 := length_strncpy _ _
  refine ⟨by decide, hlen, fun h => ?_⟩
  have h2 := h.2
  rw [hlen] at h2
  exact absurd h2 (by decide)

end Log
end BlenderBottle

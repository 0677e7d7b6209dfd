import Wahana.Incremental
import Wahana.Predis

/-!
# Predis reads the replies of the server

However a reply is cut into packets, `read` returns the value that was sent
and leaves the bytes that follow it: the length of a string is read from its
own line, so the string may hold any bytes, and the replies of an array are
read one after another. While the connection is open, nothing is read as
long as a byte of the reply is missing (`read_reply`). When it ends inside a
string, `read` throws; a line that is cut off it takes for a whole one.
-/

namespace Wahana

namespace Predis

/-! ## Packets -/

namespace Socket

variable {e : Bool}

/-- The first line ends in the first packet that holds a line feed. -/
theorem fgets_line : ∀ {socket : Socket} {line tail : Bytes}, ch '\n' ∉ line →
    socket.flatten = line ++ ch '\n' :: tail →
      ∃ socket', socket.fgets e = some (line ++ [ch '\n'], socket') ∧ socket'.flatten = tail
  | [], line, tail, _, hflat => by simp at hflat
  | packet :: socket, line, tail, hline, hflat => by
      rw [List.flatten_cons] at hflat
      rw [fgets]
      by_cases hp : ch '\n' ∈ packet
      · obtain ⟨first, rest, rfl, hfirst⟩ := List.eq_append_cons_of_mem hp
        have htake := takeLine_line hline tail
        rw [← hflat, List.append_assoc, List.cons_append, takeLine_line hfirst] at htake
        simp only [Prod.mk.injEq, true_and] at htake
        refine ⟨rest :: socket, ?_, htake.2⟩
        rw [takeLine_line hfirst, ← htake.1]
        rfl
      · -- the packet is a piece of the line
        obtain ⟨line', rfl, hflat'⟩ : ∃ line', line = packet ++ line'
            ∧ socket.flatten = line' ++ ch '\n' :: tail := by
          rcases List.append_eq_append_iff.mp hflat with ⟨line', h₁, h₂⟩ | ⟨_ | ⟨b, c⟩, h₁, h₂⟩
          · exact ⟨line', h₁, h₂⟩
          · exact ⟨[], by simpa using h₁.symm, by simpa using h₂.symm⟩
          · rw [List.cons_append] at h₂
            obtain rfl := List.head_eq_of_cons_eq h₂
            exact absurd (by rw [h₁]; simp) hp
        rw [List.mem_append, not_or] at hline
        obtain ⟨socket', hread, htail⟩ := fgets_line hline.2 hflat'
        refine ⟨socket', ?_, htail⟩
        rw [takeLine_last hp, hread]
        simp

theorem fread_nil {n : Nat} : ∀ {socket : Socket}, socket.flatten = [] →
    socket.fread e n = if e then some ([], []) else none
  | [], _ => rfl
  | [] :: socket, h => by
      rw [fread]
      exact fread_nil (by simpa using h)
  | (b :: packet) :: socket, h => by simp at h

theorem fread_some {n : Nat} (hn : 0 < n) : ∀ {socket : Socket}, socket.flatten ≠ [] →
    ∃ chunk socket', socket.fread e n = some (chunk, socket') ∧ 0 < chunk.length ∧ chunk.length ≤ n
      ∧ socket.flatten = chunk ++ socket'.flatten
  | [], h => by simp at h
  | [] :: socket, h => by
      have h' : socket.flatten ≠ [] := by simpa using h
      obtain ⟨chunk, socket', hread, hpos, hle, hflat⟩ := fread_some hn h'
      exact ⟨chunk, socket', hread, hpos, hle, by simpa using hflat⟩
  | (b :: packet) :: socket, _ => by
      refine ⟨(b :: packet).take n, (b :: packet).drop n :: socket, rfl, ?_, ?_, ?_⟩
      · rw [List.length_take, List.length_cons]
        omega
      · rw [List.length_take]
        omega
      · rw [List.flatten_cons, List.flatten_cons, ← List.append_assoc, List.take_append_drop]

theorem readBytes_data : ∀ {rounds : Nat} {data tail : Bytes} {socket : Socket}, data ≠ [] →
    data.length ≤ rounds → socket.flatten = data ++ tail →
      ∃ socket', readBytes e rounds data.length socket = .ok (data, socket')
        ∧ socket'.flatten = tail
  | 0, data, tail, socket, hne, hle, _ => absurd (List.eq_nil_of_length_eq_zero (by omega)) hne
  | rounds + 1, data, tail, socket, hne, hle, hflat => by
      have hpos : 0 < data.length := List.length_pos_of_ne_nil hne
      have hsome : socket.flatten ≠ [] := by
        rw [hflat]
        simp [hne]
      obtain ⟨chunk, socket₁, hread, hchunk, hle₁, hflat₁⟩ :=
        fread_some (e := e) (n := min data.length 4096) (by omega) hsome
      -- the chunk is a piece of the data
      obtain ⟨data', rfl⟩ : ∃ data', data = chunk ++ data' := by
        have hpre : chunk <+: data := List.prefix_of_prefix_length_le
          ⟨socket₁.flatten, hflat₁.symm⟩ ⟨tail, hflat.symm⟩ (by omega)
        exact ⟨_, hpre.choose_spec.symm⟩
      rw [hflat, List.append_assoc, List.append_cancel_left_eq] at hflat₁
      have hleft : (chunk ++ data').length - chunk.length = data'.length := by simp
      rw [readBytes, hread]
      simp only [hleft]
      rw [if_neg (List.ne_nil_of_length_pos hchunk)]
      by_cases hdata : data' = []
      · subst hdata
        exact ⟨socket₁, by simp, by simpa using hflat₁.symm⟩
      · have hpos' : 0 < data'.length := List.length_pos_of_ne_nil hdata
        rw [List.length_append] at hle
        have hle' : data'.length ≤ rounds := by omega
        obtain ⟨socket', hread', htail⟩ := readBytes_data hdata hle' hflat₁.symm
        exact ⟨socket', by rw [if_pos hpos', hread']; rfl, htail⟩

end Socket

/-! ## Numbers -/

theorem takeWhile_decimal (n : Nat) : (decimal n).takeWhile isDigit = decimal n := by
  rw [List.takeWhile_eq_self_iff]
  exact fun b hb => isDigit_of_mem_decimal hb

theorem all_isDigit_decimal (n : Nat) : (decimal n).all isDigit = true :=
  List.all_eq_true.mpr fun _ hb => isDigit_of_mem_decimal hb

theorem decimal_head (n : Nat) : ∃ b s, decimal n = b :: s ∧ b ≠ ch '-' := by
  obtain ⟨b, s, h⟩ := List.exists_cons_of_ne_nil (decimal_ne_nil n)
  refine ⟨b, s, h, ?_⟩
  rintro rfl
  have : isDigit (ch '-') = true := isDigit_of_mem_decimal (n := n) (by rw [h]; simp)
  exact absurd this (by decide)

theorem intCast_decimal (n : Nat) : intCast (decimal n) = n := by
  obtain ⟨b, s, h, hb⟩ := decimal_head n
  rw [h, intCast, if_neg hb, ← h, takeWhile_decimal, digitsValue_decimal]

theorem intCast_signed (v : Int) : intCast (signed v) = v := by
  by_cases hv : v < 0
  · rw [signed_of_neg hv, intCast, if_pos rfl, takeWhile_decimal, digitsValue_decimal]
    omega
  · rw [signed_of_nonneg (by omega), intCast_decimal]
    omega

theorem isInteger_signed (v : Int) : isInteger (signed v) = true := by
  by_cases hv : v < 0
  · rw [signed_of_neg hv, isInteger, if_pos rfl, all_isDigit_decimal]
    simp [decimal_ne_nil]
  · obtain ⟨b, s, h, hb⟩ := decimal_head v.natAbs
    rw [signed_of_nonneg (by omega), h, isInteger, if_neg hb, ← h, all_isDigit_decimal]

/-! ## Replies -/

/-- The replies of the server. -/
inductive Reply where
  | status (s : Bytes)
  | error (s : Bytes)
  | integer (v : Int)
  | bulk (s : Bytes)
  | null
  | nullArray
  | array (rs : List Reply)

namespace Reply

mutual

/-- The bytes of a reply. -/
def sent : Reply → Bytes
  | .status s => ch '+' :: s ++ crlf
  | .error s => ch '-' :: s ++ crlf
  | .integer v => addReplyLongLong v
  | .bulk s => addReplyBulk (createStringObject s)
  | .null => addReplyNull
  | .nullArray => addReplyNullArray
  | .array rs => addReplyLongLongWithPrefix rs.length (ch '*') ++ sentAll rs

def sentAll : List Reply → Bytes
  | [] => []
  | r :: rs => r.sent ++ sentAll rs

end

mutual

/-- What PHP is given for it. -/
def response : Reply → Response
  | .status s => .status s
  | .error s => .error s
  | .integer v => .integer v
  | .bulk s => .string s
  | .null => .null
  | .nullArray => .null
  | .array rs => .array (responses rs)

def responses : List Reply → List Response
  | [] => []
  | r :: rs => r.response :: responses rs

end

mutual

/-- Texts are single lines; numbers and lengths fit a `long long`. -/
def Valid : Reply → Prop
  | .status s => ch '\n' ∉ s
  | .error s => ch '\n' ∉ s
  | .integer v => IsLongLong v
  | .bulk s => (s.length : Int) ≤ llongMax
  | .null => True
  | .nullArray => True
  | .array rs => (rs.length : Int) ≤ llongMax ∧ AllValid rs

def AllValid : List Reply → Prop
  | [] => True
  | r :: rs => r.Valid ∧ AllValid rs

end

mutual

/-- The nesting of arrays. -/
def depth : Reply → Nat
  | .array rs => depths rs + 1
  | _ => 1

def depths : List Reply → Nat
  | [] => 0
  | r :: rs => max r.depth (depths rs)

end

theorem sentAll_eq : ∀ rs : List Reply, sentAll rs = (rs.map sent).flatten
  | [] => rfl
  | r :: rs => by rw [sentAll, sentAll_eq rs, List.map_cons, List.flatten_cons]

theorem responses_eq : ∀ rs : List Reply, responses rs = rs.map response
  | [] => rfl
  | r :: rs => by rw [responses, responses_eq rs, List.map_cons]

theorem allValid_of_forall : ∀ {rs : List Reply}, (∀ r ∈ rs, r.Valid) → AllValid rs
  | [], _ => trivial
  | r :: rs, h => by
      rw [List.forall_mem_cons] at h
      exact ⟨h.1, allValid_of_forall h.2⟩

theorem depths_le : ∀ {rs : List Reply} {n : Nat}, (∀ r ∈ rs, r.depth ≤ n) → depths rs ≤ n
  | [], _, _ => Nat.zero_le _
  | r :: rs, n, h => by
      rw [List.forall_mem_cons] at h
      exact Nat.max_le.mpr ⟨h.1, depths_le h.2⟩

end Reply

theorem newline_notMem_line {sign : UInt8} {payload : Bytes} (hsign : sign ≠ ch '\n')
    (hpayload : ch '\n' ∉ payload) : ch '\n' ∉ sign :: payload ++ [ch '\r'] := by
  simp only [List.cons_append, List.mem_cons, List.mem_append, List.not_mem_nil, or_false]
  rintro (h | h | h)
  · exact hsign h.symm
  · exact hpayload h
  · cases h

section

variable {e : Bool}

/-- The line of a reply is read and the switch entered. -/
theorem read_line {sign : UInt8} {payload tail : Bytes} {socket : Socket} (depth : Nat)
    (hsign : sign ≠ ch '\n') (hpayload : ch '\n' ∉ payload)
    (hflat : socket.flatten = sign :: payload ++ crlf ++ tail) :
    ∃ socket', socket'.flatten = tail
      ∧ read e (depth + 1) socket
        = readSwitch e (read e depth) sign payload socket' := by
  have hflat' : socket.flatten = sign :: payload ++ [ch '\r'] ++ ch '\n' :: tail := by
    rw [hflat]
    simp [crlf]
  obtain ⟨socket', hread, htail⟩ :=
    Socket.fgets_line (newline_notMem_line hsign hpayload) hflat'
  refine ⟨socket', htail, ?_⟩
  rw [read, hread]
  simp

theorem newline_notMem_signed (v : Int) : ch '\n' ∉ signed v := by
  have hdec : ch '\n' ∉ decimal v.natAbs := by
    intro h
    exact absurd (isDigit_of_mem_decimal h) (by decide)
  rw [signed]
  split
  · rw [List.mem_cons, not_or]
    exact ⟨by decide, hdec⟩
  · exact hdec

theorem sent_null : Reply.null.sent = ch '$' :: signed (-1) ++ crlf := by
  decide +kernel

theorem sent_nullArray : Reply.nullArray.sent = ch '*' :: signed (-1) ++ crlf := by
  decide +kernel

theorem sent_bulk {s : Bytes} (h : (s.length : Int) ≤ llongMax) :
    (Reply.bulk s).sent = ch '$' :: signed s.length ++ crlf ++ (s ++ crlf) := by
  rw [Reply.sent, addReplyBulk_eq (by rw [decoded_createStringObject]; exact h),
    decoded_createStringObject, signed_natCast, bulk]
  simp only [List.append_assoc]

theorem depth_pos (r : Reply) : 0 < r.depth := by
  cases r <;> simp [Reply.depth]

mutual

theorem read_sent : ∀ (r : Reply), r.Valid → ∀ {depth : Nat} {tail : Bytes} {socket : Socket},
    r.depth ≤ depth + 1 → socket.flatten = r.sent ++ tail →
      ∃ socket', read e (depth + 1) socket = .ok (r.response, socket')
        ∧ socket'.flatten = tail
  | .status s, hv, depth, tail, socket, _, hflat => by
      obtain ⟨socket', htail, hread⟩ := read_line depth (by decide) hv hflat
      exact ⟨socket', hread, htail⟩
  | .error s, hv, depth, tail, socket, _, hflat => by
      obtain ⟨socket', htail, hread⟩ := read_line depth (by decide) hv hflat
      exact ⟨socket', hread, htail⟩
  | .integer v, hv, depth, tail, socket, _, hflat => by
      rw [Reply.sent, addReplyLongLong_eq hv] at hflat
      obtain ⟨socket', htail, hread⟩ := read_line depth (by decide) (newline_notMem_signed v) hflat
      refine ⟨socket', ?_, htail⟩
      rw [hread, readSwitch, if_neg (by decide), if_neg (by decide), if_neg (by decide), if_pos rfl,
        isInteger_signed, if_pos rfl, intCast_signed]
      rfl
  | .bulk s, hv, depth, tail, socket, _, hflat => by
      rw [sent_bulk hv, List.append_assoc] at hflat
      obtain ⟨socket₁, htail₁, hread⟩ :=
        read_line depth (by decide) (newline_notMem_signed _) hflat
      obtain ⟨socket', hdata, htail⟩ :=
        Socket.readBytes_data (e := e) (by simp [crlf]) (le_refl _) htail₁
      refine ⟨socket', ?_, htail⟩
      have hlen : ((s.length : Int) + 2).toNat = (s ++ crlf).length := by
        rw [List.length_append]
        show _ = s.length + 2
        omega
      have htake : (s ++ crlf).take ((s ++ crlf).length - 2) = s := by simp [crlf]
      rw [hread, readSwitch, if_neg (by decide), if_pos rfl, intCast_signed, if_neg (by omega),
        hlen, hdata]
      simp only [htake]
      rfl
  | .null, _, depth, tail, socket, _, hflat => by
      rw [sent_null] at hflat
      obtain ⟨socket', htail, hread⟩ :=
        read_line depth (by decide) (newline_notMem_signed _) hflat
      refine ⟨socket', ?_, htail⟩
      rw [hread, readSwitch, if_neg (by decide), if_pos rfl, intCast_signed]
      rfl
  | .nullArray, _, depth, tail, socket, _, hflat => by
      rw [sent_nullArray] at hflat
      obtain ⟨socket', htail, hread⟩ :=
        read_line depth (by decide) (newline_notMem_signed _) hflat
      refine ⟨socket', ?_, htail⟩
      rw [hread, readSwitch, if_neg (by decide), if_neg (by decide), if_pos rfl, intCast_signed]
      rfl
  | .array rs, hv, depth, tail, socket, hd, hflat => by
      rw [Reply.sent, addReplyLongLongWithPrefix_eq (isLongLong_natCast hv.1),
        List.append_assoc] at hflat
      obtain ⟨socket₁, htail₁, hread⟩ :=
        read_line depth (by decide) (newline_notMem_signed _) hflat
      rw [Reply.depth, Nat.add_le_add_iff_right] at hd
      obtain ⟨socket', hmany, htail⟩ := readMany_sent rs hv.2 hd htail₁
      refine ⟨socket', ?_, htail⟩
      rw [hread, readSwitch, if_neg (by decide), if_neg (by decide), if_pos rfl, intCast_signed,
        if_neg (by omega), Int.toNat_natCast, hmany]
      rfl

theorem readMany_sent : ∀ (rs : List Reply), Reply.AllValid rs → ∀ {depth : Nat} {tail : Bytes}
    {socket : Socket}, Reply.depths rs ≤ depth → socket.flatten = Reply.sentAll rs ++ tail →
      ∃ socket', readMany (read e depth) rs.length socket = .ok (Reply.responses rs, socket')
        ∧ socket'.flatten = tail
  | [], _, depth, tail, socket, _, hflat => ⟨socket, rfl, hflat⟩
  | r :: rs, hv, depth, tail, socket, hd, hflat => by
      rw [Reply.depths, Nat.max_le] at hd
      rw [Reply.sentAll, List.append_assoc] at hflat
      have hpos := depth_pos r
      obtain ⟨depth, rfl⟩ : ∃ d, depth = d + 1 := ⟨depth - 1, by omega⟩
      obtain ⟨socket₁, hfirst, htail₁⟩ := read_sent r hv.1 hd.1 hflat
      obtain ⟨socket', hothers, htail⟩ := readMany_sent rs hv.2 hd.2 htail₁
      refine ⟨socket', ?_, htail⟩
      rw [List.length_cons, readMany, hfirst]
      simp only [hothers, Reply.responses]

end

end

/-! ## Truncated replies -/

theorem Socket.fgets_none : ∀ {socket : Socket}, ch '\n' ∉ socket.flatten →
    socket.fgets false = none
  | [], _ => rfl
  | packet :: socket, h => by
      rw [List.flatten_cons, List.mem_append, not_or] at h
      rw [fgets, takeLine_last h.1, fgets_none h.2]
      rfl

/-- Where data is missing, the loop waits for it, or throws if the
connection has ended. -/
theorem Socket.readBytes_missing {e : Bool} : ∀ {rounds bytesLeft : Nat} {socket : Socket},
    bytesLeft ≤ rounds → socket.flatten.length < bytesLeft →
      readBytes e rounds bytesLeft socket = .error (if e then bytesError else .wait)
  | 0, _, _, hle, hlt => by omega
  | rounds + 1, bytesLeft, socket, hle, hlt => by
      rw [readBytes]
      by_cases hnil : socket.flatten = []
      · rw [fread_nil hnil]
        cases e <;> rfl
      · obtain ⟨chunk, socket', hread, hpos, hsmall, hflat⟩ :=
          fread_some (e := e) (n := min bytesLeft 4096) (by omega) hnil
        rw [hflat, List.length_append] at hlt
        have hleft : socket'.flatten.length < bytesLeft - chunk.length := by omega
        simp only [hread]
        rw [if_neg (List.ne_nil_of_length_pos hpos), if_pos (by omega),
          readBytes_missing (by omega) hleft]
        rfl

theorem read_line_truncated {sign : UInt8} {payload missing : Bytes} {socket : Socket}
    (depth : Nat) (hsign : sign ≠ ch '\n') (hpayload : ch '\n' ∉ payload) (hne : missing ≠ [])
    (hflat : socket.flatten ++ missing = sign :: payload ++ crlf) :
    read false (depth + 1) socket = .error .wait := by
  -- only the last byte of the line is a line feed, and it is missing
  have hsplit : sign :: payload ++ crlf = (sign :: payload ++ [ch '\r']) ++ [ch '\n'] := by
    simp [crlf]
  rw [← List.dropLast_append_getLast hne, ← List.append_assoc, hsplit] at hflat
  have hline := List.append_inj_left' hflat rfl
  have hnone : ch '\n' ∉ socket.flatten := by
    intro hmem
    refine newline_notMem_line hsign hpayload ?_
    rw [← hline]
    exact List.mem_append_left _ hmem
  rw [read, Socket.fgets_none hnone]

/-- The length of a string is there, and not all of the string. -/
theorem read_data_missing {e : Bool} {s part missing : Bytes} {socket : Socket} (depth : Nat)
    (hne : missing ≠ []) (hs : part ++ missing = s ++ crlf)
    (hflat : socket.flatten = ch '$' :: signed s.length ++ crlf ++ part) :
    read e (depth + 1) socket = .error (if e then bytesError else .wait) := by
  obtain ⟨socket', htail, hread⟩ := read_line (e := e) depth (by decide)
    (newline_notMem_signed _) hflat
  have hpos : 0 < missing.length := List.length_pos_of_ne_nil hne
  have hlt : socket'.flatten.length < ((s.length : Int) + 2).toNat := by
    have hlen := congrArg List.length hs
    rw [List.length_append, List.length_append, show crlf.length = 2 from rfl] at hlen
    rw [htail]
    omega
  rw [hread, readSwitch, if_neg (by decide), if_pos rfl, intCast_signed,
    if_neg (by omega), Socket.readBytes_missing (le_refl _) hlt]

mutual

theorem read_truncated : ∀ (r : Reply), r.Valid → ∀ {depth : Nat} {missing : Bytes}
    {socket : Socket}, r.depth ≤ depth + 1 → missing ≠ [] →
      socket.flatten ++ missing = r.sent → read false (depth + 1) socket = .error .wait
  | .status s, hv, depth, missing, socket, _, hne, hflat =>
      read_line_truncated depth (by decide) hv hne hflat
  | .error s, hv, depth, missing, socket, _, hne, hflat =>
      read_line_truncated depth (by decide) hv hne hflat
  | .integer v, hv, depth, missing, socket, _, hne, hflat => by
      rw [Reply.sent, addReplyLongLong_eq hv] at hflat
      exact read_line_truncated depth (by decide) (newline_notMem_signed v) hne hflat
  | .null, _, depth, missing, socket, _, hne, hflat => by
      rw [sent_null] at hflat
      exact read_line_truncated depth (by decide) (newline_notMem_signed _) hne hflat
  | .nullArray, _, depth, missing, socket, _, hne, hflat => by
      rw [sent_nullArray] at hflat
      exact read_line_truncated depth (by decide) (newline_notMem_signed _) hne hflat
  | .bulk s, hv, depth, missing, socket, _, hne, hflat => by
      rw [sent_bulk hv] at hflat
      rcases truncated_append hflat with ⟨m, hm, hline⟩ | ⟨part, hpart, hs⟩
      · exact read_line_truncated depth (by decide) (newline_notMem_signed _) hm hline
      · exact read_data_missing depth hne hs hpart
  | .array rs, hv, depth, missing, socket, hd, hne, hflat => by
      rw [Reply.sent, addReplyLongLongWithPrefix_eq (isLongLong_natCast hv.1)] at hflat
      rcases truncated_append hflat with ⟨m, hm, hline⟩ | ⟨part, hpart, hrs⟩
      · exact read_line_truncated depth (by decide) (newline_notMem_signed _) hm hline
      · obtain ⟨socket', htail, hread⟩ :=
          read_line depth (by decide) (newline_notMem_signed _) hpart
        rw [Reply.depth, Nat.add_le_add_iff_right] at hd
        rw [hread, readSwitch, if_neg (by decide), if_neg (by decide), if_pos rfl,
          intCast_signed, if_neg (by omega), Int.toNat_natCast,
          readMany_truncated rs hv.2 hd hne (by rw [htail, hrs])]

theorem readMany_truncated : ∀ (rs : List Reply), Reply.AllValid rs → ∀ {depth : Nat}
    {missing : Bytes} {socket : Socket}, Reply.depths rs ≤ depth → missing ≠ [] →
      socket.flatten ++ missing = Reply.sentAll rs →
        readMany (read false depth) rs.length socket = .error .wait
  | [], _, depth, missing, socket, _, hne, hflat => by
      rw [Reply.sentAll, List.append_eq_nil_iff] at hflat
      exact absurd hflat.2 hne
  | r :: rs, hv, depth, missing, socket, hd, hne, hflat => by
      rw [Reply.depths, Nat.max_le] at hd
      rw [Reply.sentAll] at hflat
      have hpos := depth_pos r
      obtain ⟨depth, rfl⟩ : ∃ d, depth = d + 1 := ⟨depth - 1, by omega⟩
      rcases truncated_append hflat with ⟨m, hm, hfirst⟩ | ⟨part, hpart, hrs⟩
      · rw [List.length_cons, readMany, read_truncated r hv.1 hd.1 hm hfirst]
      · obtain ⟨socket', hfirst, htail⟩ := read_sent r hv.1 hd.1 hpart
        rw [List.length_cons, readMany, hfirst]
        simp only [readMany_truncated rs hv.2 hd.2 hne (by rw [htail, hrs])]

end

/-- A reply that is there is read, however it was cut into packets, and what
follows it stays. Of a reply that is not there completely nothing is read
while the connection is open; and where it has ended inside a string, the
client throws. -/
theorem read_reply (r : Reply) (hv : r.Valid) {depth : Nat} (hd : r.depth ≤ depth)
    (socket : Socket) :
    (∀ ended tail, socket.flatten = r.sent ++ tail →
      ∃ socket', read ended depth socket = .ok (r.response, socket') ∧ socket'.flatten = tail) ∧
    (∀ missing, missing ≠ [] → socket.flatten ++ missing = r.sent →
      read false depth socket = .error .wait) ∧
    ∀ s part missing, r = .bulk s → missing ≠ [] → part ++ missing = s ++ crlf →
      socket.flatten = ch '$' :: signed s.length ++ crlf ++ part →
        read true depth socket = .error bytesError := by
  have hpos := depth_pos r
  obtain ⟨depth, rfl⟩ : ∃ d, depth = d + 1 := ⟨depth - 1, by omega⟩
  exact ⟨fun _ _ hflat => read_sent r hv hd hflat,
    fun _ hne hflat => read_truncated r hv hd hne hflat,
    fun _ _ _ _ hne hs hflat => read_data_missing depth hne hs hflat⟩

/-- An array of a number, a string with a line feed in it and no value, in
three packets; and a string of which the last two bytes never come. -/
theorem array_in_packets :
    (∃ socket', read false 2 [bytes "*3\r\n:-7\r", bytes "\n$3\r\na\nb", bytes "\r\n*-1\r\n+OK"]
        = .ok (.array [.integer (-7), .string (bytes "a\nb"), .null], socket')
      ∧ socket'.flatten = bytes "+OK")
    ∧ read true 1 [bytes "$3\r\na", bytes "\nb"] = .error bytesError :=
  ⟨(read_reply (.array [.integer (-7), .bulk (bytes "a\nb"), .nullArray])
    ⟨by decide, show IsLongLong (-7) by decide, show _ ≤ llongMax by decide, trivial, trivial⟩
    (le_refl 2) _).1 false _ (by decide +kernel),
  (read_reply (.bulk (bytes "a\nb")) (show _ ≤ llongMax by decide) (le_refl 1) _).2.2
    (bytes "a\nb") (bytes "a\nb") crlf rfl (by decide) rfl (by decide +kernel)⟩

-- A line that is cut off is read without its last two bytes.
example : read true 1 [bytes ":12345"] = .ok (.integer 123, []) := rfl

end Predis

end Wahana

/-
  File:      Frac/Tcp/Transmit.lean
  Subject:   The sender between the frames it is given and a TCP stack that answers every metadata word
             it accepts with one status, in order.

  * `Frame` -- up to 512 beats and the status the stack will return; `Frame.crossings` -- what has to
    cross the ports for it;
  * `Link` -- the sender, the beats still to come, the statuses to return and a log of the crossings;
  * `Story` -- **where the sender is in the frames**: between two of them, or inside one;
    `story_step` -- an edge keeps it;
  * `Link.work` -- what is left to do; it drops at every edge where nobody stalls (`work_run`);
  * `transmits_frames` -- **with an OK status for every frame the frames cross as they are**;
    `failed_frame_removed` -- **with any statuses, if and only if the failed frames have one beat**;
    `failed_frame_blocks` -- a failed frame of two beats.
-/
import Frac.Tcp.Sender

namespace Frac.Tcp

open Clocked

/-! ## 1. Frames -/

/-- A response frame: its beats as `{meta, data}`, the last one on its own, and the status that the
    stack will return for it. -/
structure Frame where
  body : List (BitVec 32 × BitVec 512)
  last : BitVec 32 × BitVec 512
  status : BitVec 64
  short : body.length < 512

namespace Frame

def beats (f : Frame) : List SendBeat :=
  f.body.map (fun b => ⟨b.1, false, b.2⟩) ++ [⟨f.last.1, true, f.last.2⟩]

/-- The beats without their metadata: `{tlast, data}`. -/
def words (f : Frame) : List (Bool × BitVec 512) :=
  f.body.map (fun b => (false, b.2)) ++ [(true, f.last.2)]

/-- The connection is closed when the frame is sent. -/
def failed (f : Frame) : Bool := statusError f.status

/-- A failed frame has one beat. -/
def Clean (f : Frame) : Prop := f.failed = true → f.body = []

end Frame

/-- What crosses the ports with the beats `ws` of a frame: the status with the first one, and nothing
    else if it is an error. -/
def traffic (error : Bool) : List (Bool × BitVec 512) → List Crossing
  | [] => []
  | w :: ws =>
    if error then [⟨none, none, some true⟩]
    else ⟨none, some w, some false⟩ :: ws.map fun w => ⟨none, some w, none⟩

/-- **What has to cross the ports for a frame**: the metadata of its last beat, and then its beats. -/
def Frame.crossings (f : Frame) : List Crossing :=
  ⟨some f.last.1, none, none⟩ :: traffic f.failed f.words

theorem map_word_beats (f : Frame) : f.beats.map (·.word) = f.words := by
  simp [Frame.beats, Frame.words, SendBeat.word]

theorem map_word_flatMap (fs : List Frame) :
    (fs.flatMap (·.beats)).map (·.word) = fs.flatMap (·.words) := by
  rw [List.map_flatMap]
  exact List.flatMap_congr fun f _ => map_word_beats f

theorem length_words (f : Frame) : f.words.length = f.body.length + 1 := by simp [Frame.words]

/-- The metadata of the last beats. -/
def metas (bs : List SendBeat) : List (BitVec 32) := (bs.filter (·.tlast)).map (·.txMeta)

theorem metas_append (bs cs : List SendBeat) : metas (bs ++ cs) = metas bs ++ metas cs := by
  rw [metas, List.filter_append, List.map_append]
  rfl

theorem metas_beats (f : Frame) : metas f.beats = [f.last.1] := by
  have hbody : (f.body.map (fun b => (⟨b.1, false, b.2⟩ : SendBeat))).filter (·.tlast) = [] := by
    rw [List.filter_eq_nil_iff]
    intro b hb
    obtain ⟨c, -, rfl⟩ := List.mem_map.mp hb
    exact Bool.false_ne_true
  rw [metas, Frame.beats, List.filter_append, hbody]
  rfl

theorem metas_flatMap (fs : List Frame) : metas (fs.flatMap (·.beats)) = fs.map (·.last.1) := by
  induction fs with
  | nil => rfl
  | cons f fs ih => rw [List.flatMap_cons, metas_append, metas_beats, ih]; rfl

/-- The last beat is the one with `tlast`. -/
theorem last_iff {f : Frame} {sent left : List (Bool × BitVec 512)} {w : Bool × BitVec 512}
    (h : f.words = sent ++ w :: left) : w.1 = true ↔ left = [] := by
  have hlen : f.words.length = sent.length + (left.length + 1) := by
    rw [h, List.length_append, List.length_cons]
  have hget : f.words[sent.length]? = some w := by rw [h]; simp
  rw [length_words] at hlen
  rw [Frame.words, List.getElem?_append] at hget
  constructor
  · intro hw
    refine List.length_eq_zero_iff.mp ?_
    by_contra hne
    rw [if_pos (by rw [List.length_map]; omega), List.getElem?_map] at hget
    obtain ⟨b, -, rfl⟩ := Option.map_eq_some_iff.mp hget
    cases hw
  · rintro rfl
    rw [if_neg (by rw [List.length_map]; simp at hlen; omega)] at hget
    have hzero : sent.length - (f.body.map fun b => (false, b.2)).length = 0 := by
      rw [List.length_map]
      simp at hlen
      omega
    rw [hzero] at hget
    injection hget with hget
    rw [← hget]

/-- **Where a word with `tlast` is held, the first frame is held whole.** -/
theorem whole_of_last {f : Frame} {held more tail : List (Bool × BitVec 512)}
    (h : held ++ more = f.words ++ tail) (hl : ∃ w ∈ held, w.1 = true) :
    ∃ pre, held = f.words ++ pre ∧ pre ++ more = tail := by
  rcases List.append_eq_append_iff.mp h with ⟨cut, hw, ht⟩ | ⟨pre, hh, ht⟩
  · obtain ⟨w, hmem, hlast⟩ := hl
    obtain ⟨as, bs, rfl⟩ := List.append_of_mem hmem
    rw [List.append_assoc, List.cons_append] at hw
    have hnil := (last_iff hw).mp hlast
    obtain ⟨rfl, rfl⟩ := List.append_eq_nil_iff.mp hnil
    exact ⟨[], by rw [hw, List.append_nil]; rfl, by rw [ht]; rfl⟩
  · exact ⟨pre, hh, ht.symm⟩

/-! ## 2. The sender and the stack -/

/-- The sender, the beats still to be offered, the statuses of the frames whose metadata is still to be
    accepted, those the stack owes, and what has crossed the ports. -/
structure Link where
  sender : Sender
  todo : List SendBeat
  statuses : List (BitVec 64)
  owed : List (BitVec 64)
  log : List Crossing

/-- Who stalls at an edge: the source of the beats, the stack on its three ports, the three FIFOs. -/
structure LinkIn where
  offer : Bool
  answer : Bool
  metadataTready : Bool
  dataTready : Bool
  status : Fifo.Pins
  payload : Fifo.Pins
  metadata : Fifo.Pins

namespace Link

def init (fs : List Frame) : Link :=
  ⟨Sender.reset, fs.flatMap (·.beats), fs.map (·.status), [], []⟩

/-- The pins of the sender. -/
def pins (l : Link) (i : LinkIn) : SenderIn where
  rst := false
  rx := if i.offer then l.todo.head? else none
  txStatus := if i.answer then l.owed.head? else none
  metadataTready := i.metadataTready
  dataTready := i.dataTready
  status := i.status
  payload := i.payload
  metadata := i.metadata

/-- The beat the sender takes in. -/
def taken (l : Link) (i : LinkIn) : Option SendBeat := l.sender.taken (l.pins i)

/-- The status the sender takes in. -/
def accepted (l : Link) (i : LinkIn) : Option (BitVec 64) :=
  if l.sender.status.room i.status then (l.pins i).txStatus else none

/-- The metadata word the stack takes. -/
def announced (l : Link) (i : LinkIn) : Option (BitVec 32) := l.sender.metadataLeft (l.pins i)

/-- The status that comes due with it. -/
def due (l : Link) (i : LinkIn) : List (BitVec 64) :=
  if (l.announced i).isSome then l.statuses.head?.toList else []

/-- The beat that leaves the payload FIFO. -/
def released (l : Link) (i : LinkIn) : Option (Bool × BitVec 512) := l.sender.payloadLeft (l.pins i)

/-- What the log gains. -/
def shows (l : Link) (i : LinkIn) : List Crossing :=
  let c := l.sender.crossing (l.pins i)
  if c = .quiet then [] else [c]

/-- **One edge of the sender and the stack.** -/
def step (l : Link) (i : LinkIn) : Link where
  sender := l.sender.clock (l.pins i)
  todo := if (l.taken i).isSome then l.todo.tail else l.todo
  statuses := if (l.announced i).isSome then l.statuses.tail else l.statuses
  owed := (if (l.accepted i).isSome then l.owed.tail else l.owed) ++ l.due i
  log := l.log ++ l.shows i

/-- The statuses the stack has to return, in the sender's FIFO or owed. -/
def answers (l : Link) : List Bool := l.sender.status.items ++ l.owed.map statusError

end Link

/-- **Beats taken in and beats to come.** -/
theorem taken_todo (l : Link) (i : LinkIn) : (l.taken i).toList ++ (l.step i).todo = l.todo :=
  List.toList_taken (Option.offer_cases ..)

theorem accepted_owed (l : Link) (i : LinkIn) :
    (l.accepted i).toList ++ (l.step i).owed = l.owed ++ l.due i := by
  have h : (l.accepted i).toList ++ (if (l.accepted i).isSome then l.owed.tail else l.owed) = l.owed :=
    List.toList_taken (Option.offer_cases ..)
  rw [Link.step, ← List.append_assoc, h]

/-- A beat is taken in with room for it in the payload FIFO. -/
theorem payload_entered (l : Link) (i : LinkIn) :
    l.sender.payload.entered i.payload ((l.taken i).map (·.word)) = (l.taken i).map (·.word) := by
  unfold Fifo.entered Link.taken Sender.taken Sender.rxTready
  have hpins : (l.pins i).payload = i.payload := rfl
  rw [hpins]
  cases l.sender.payload.room i.payload <;> simp

theorem metadata_entered (l : Link) (i : LinkIn) :
    l.sender.metadata.entered i.metadata (((l.taken i).filter (·.tlast)).map (·.txMeta)) =
      ((l.taken i).filter (·.tlast)).map (·.txMeta) := by
  unfold Fifo.entered Link.taken Sender.taken Sender.rxTready
  have hpins : (l.pins i).metadata = i.metadata := rfl
  rw [hpins]
  cases l.sender.metadata.room i.metadata <;> simp

/-- **The beats held**: what leaves is what was there first. -/
theorem released_held (l : Link) (i : LinkIn) :
    (l.released i).toList ++ (l.step i).sender.payload.items =
      l.sender.payload.items ++ (l.taken i).toList.map (·.word) := by
  have h := Fifo.slowEdge_items l.sender.payload i.payload ((l.taken i).map (·.word))
    (l.sender.payloadTready (l.pins i))
  rw [payload_entered, Option.toList_map] at h
  exact h

theorem announced_metadata (l : Link) (i : LinkIn) :
    (l.announced i).toList ++ ((l.step i).sender.metadata.items ++ metas (l.step i).todo) =
      l.sender.metadata.items ++ metas l.todo := by
  have h := Fifo.slowEdge_items l.sender.metadata i.metadata
    (((l.taken i).filter (·.tlast)).map (·.txMeta)) (l.sender.metadataTready (l.pins i))
  rw [metadata_entered] at h
  have htaken : (((l.taken i).filter (·.tlast)).map (·.txMeta)).toList = metas (l.taken i).toList := by
    cases l.taken i with
    | none => rfl
    | some b => cases hb : b.tlast <;> simp [metas, hb]
  rw [htaken] at h
  rw [← List.append_assoc, ← taken_todo l i, metas_append, ← List.append_assoc, ← h]
  rfl

/-- **The statuses**: one is consumed, one comes due. -/
theorem answers_step (l : Link) (i : LinkIn) :
    (l.sender.statusLeft (l.pins i)).toList ++ (l.step i).answers =
      l.answers ++ (l.due i).map statusError := by
  have h := Fifo.slowEdge_items l.sender.status i.status ((l.pins i).txStatus.map statusError)
    (l.sender.statusTready (l.pins i))
  have hin : l.sender.status.entered i.status ((l.pins i).txStatus.map statusError) =
      (l.accepted i).map statusError := by
    unfold Fifo.entered Link.accepted
    split <;> rfl
  rw [hin] at h
  have howed := congrArg (List.map statusError) (accepted_owed l i)
  rw [List.map_append, List.map_append] at howed
  rw [Link.answers, Link.answers, List.append_assoc, ← howed, ← Option.toList_map, ← List.append_assoc,
    ← List.append_assoc, ← h]
  rfl

/-! ## 3. Where the sender is in the frames -/

/-- The frames of which no metadata has been taken, with those of their beats that are `held`. -/
structure Ahead (l : Link) (rest : List Frame) (held : List (Bool × BitVec 512)) : Prop where
  payload : held ++ l.todo.map (·.word) = rest.flatMap (·.words)
  metadata : l.sender.metadata.items ++ metas l.todo = rest.map (·.last.1)
  statuses : l.statuses = rest.map (·.status)

/-- **The story so far.** A frame that is done was sent, or dropped with its only beat. Inside a frame
    some beats are sent and all others held; the status is there until the first beat has left. -/
inductive Story (fs : List Frame) (l : Link) : Prop where
  | between (done rest : List Frame) (split : fs = done ++ rest) (clean : ∀ f ∈ done, f.Clean)
      (active : l.sender.active = false) (answers : l.answers = [])
      (ahead : Ahead l rest l.sender.payload.items) (log : l.log = done.flatMap (·.crossings))
  | inside (done rest : List Frame) (f : Frame) (sent left held : List (Bool × BitVec 512))
      (split : fs = done ++ f :: rest) (clean : ∀ f ∈ done, f.Clean) (active : l.sender.active = true)
      (words : f.words = sent ++ left) (ne : left ≠ []) (items : l.sender.payload.items = left ++ held)
      (answers : l.answers = if sent = [] then [f.failed] else [])
      (consumed : l.sender.consumed = (!sent.isEmpty && !f.failed)) (ahead : Ahead l rest held)
      (log : l.log = done.flatMap (·.crossings) ++ ⟨some f.last.1, none, none⟩ :: traffic f.failed sent)

theorem story_init (fs : List Frame) : Story fs (.init fs) := by
  refine .between [] fs rfl (fun f hf => nomatch hf) rfl rfl ⟨?_, ?_, rfl⟩ rfl
  · exact map_word_flatMap fs
  · exact metas_flatMap fs

theorem countP_words (f : Frame) : f.words.countP (·.1) = 1 := by
  rw [Frame.words, List.countP_append, List.countP_map]
  simp

theorem countP_flatMap_words (fs : List Frame) :
    (fs.flatMap (·.words)).countP (·.1) = fs.length := by
  induction fs with
  | nil => rfl
  | cons f fs ih =>
      rw [List.flatMap_cons, List.countP_append, countP_words, ih, List.length_cons, Nat.add_comm]

theorem length_metas (bs : List SendBeat) : (metas bs).length = (bs.map (·.word)).countP (·.1) := by
  rw [metas, List.length_map, ← List.countP_eq_length_filter, List.countP_map]
  rfl

/-- One last beat is held for each metadata word. -/
theorem Ahead.held_last {l : Link} {rest : List Frame} {held : List (Bool × BitVec 512)}
    (h : Ahead l rest held) : held.countP (·.1) = l.sender.metadata.items.length := by
  have hwords : (rest.flatMap (·.words)).countP (·.1) = rest.length := countP_flatMap_words rest
  have hmetas := congrArg List.length h.metadata
  rw [← h.payload, List.countP_append] at hwords
  rw [List.length_append, List.length_map, length_metas] at hmetas
  omega

/-- An edge that takes no metadata leaves the frames ahead where they are. -/
theorem Ahead.step {l : Link} {i : LinkIn} {rest : List Frame} {held held' : List (Bool × BitVec 512)}
    (h : Ahead l rest held) (hm : l.announced i = none)
    (hh : held' = held ++ (l.taken i).toList.map (·.word)) : Ahead (l.step i) rest held' where
  payload := by
    rw [hh, List.append_assoc, ← List.map_append, taken_todo]
    exact h.payload
  metadata := by
    have hmeta := announced_metadata l i
    rw [hm] at hmeta
    exact hmeta.trans h.metadata
  statuses := by
    rw [Link.step, hm]
    exact h.statuses

/-- **A beat leaves.** What the log has gained is the frame's next crossing, and no status is left. -/
theorem story_release {fs done rest : List Frame} {f : Frame} {l : Link} {i : LinkIn}
    {sent left held : List (Bool × BitVec 512)} {w : Bool × BitVec 512}
    (split : fs = done ++ f :: rest) (clean : ∀ f ∈ done, f.Clean) (words : f.words = sent ++ left)
    (items : l.sender.payload.items = left ++ held) (ahead : Ahead l rest held) (ne : left ≠ [])
    (hw : l.released i = some w) (hm : l.announced i = none) (hfirst : f.failed = true → sent = [])
    (hflags : l.sender.flagsNext (l.pins i) = (!w.1, !w.1 && !f.failed))
    (hans : (l.step i).answers = [])
    (hlog : (l.step i).log = done.flatMap (·.crossings) ++
      ⟨some f.last.1, none, none⟩ :: traffic f.failed (sent ++ [w])) : Story fs (l.step i) := by
  obtain ⟨v, left, rfl⟩ := List.exists_cons_of_ne_nil ne
  have hheld := released_held l i
  rw [hw, items] at hheld
  obtain ⟨rfl, hitems⟩ : w = v ∧
      (l.step i).sender.payload.items = left ++ (held ++ (l.taken i).toList.map (·.word)) := by
    simpa using hheld
  have hact : (l.step i).sender.active = !w.1 := congrArg Prod.fst hflags
  have hcons : (l.step i).sender.consumed = (!w.1 && !f.failed) := congrArg Prod.snd hflags
  have hwords : f.words = (sent ++ [w]) ++ left := by rw [words, List.append_assoc]; rfl
  cases hlast : w.1 with
  | true =>
      have hleft : left = [] := (last_iff words).mp hlast
      rw [hleft, List.append_nil] at hwords
      refine .between (done ++ [f]) rest (by rw [split, List.append_assoc]; rfl) ?_ ?_ hans ?_ ?_
      · intro g hg
        rcases List.mem_append.mp hg with hg | hg
        · exact clean g hg
        · rw [List.mem_singleton.mp hg]
          intro hf
          have hlen := length_words f
          rw [hwords, hfirst hf] at hlen
          exact List.length_eq_zero_iff.mp (Nat.succ_injective hlen).symm
      · rw [hact, hlast]; rfl
      · refine ahead.step hm ?_
        rw [hleft] at hitems
        exact hitems
      · rw [hlog, List.flatMap_append, List.flatMap_singleton, Frame.crossings, hwords]
  | false =>
      have hne : left ≠ [] := fun hl => by rw [(last_iff words).mpr hl] at hlast; cases hlast
      refine .inside done rest f (sent ++ [w]) left _ split clean ?_ hwords hne hitems ?_ ?_ ?_ hlog
      · rw [hact, hlast]; rfl
      · rw [hans, if_neg (by simp)]
      · rw [hcons, hlast]; simp
      · exact ahead.step hm rfl

theorem traffic_next {sent : List (Bool × BitVec 512)} (h : sent ≠ []) (w : Bool × BitVec 512) :
    traffic false (sent ++ [w]) = traffic false sent ++ [⟨none, some w, none⟩] := by
  cases sent with
  | nil => exact absurd rfl h
  | cons v vs => simp [traffic]

theorem log_of_crossing {l : Link} {i : LinkIn} {c : Crossing} (h : l.sender.crossing (l.pins i) = c)
    (hc : c ≠ .quiet) : (l.step i).log = l.log ++ [c] := by
  subst h
  exact congrArg (l.log ++ ·) (if_neg hc)

theorem log_of_quiet {l : Link} {i : LinkIn} (h : l.sender.crossing (l.pins i) = .quiet) :
    (l.step i).log = l.log := by
  have hs : l.shows i = [] := if_pos h
  rw [Link.step, hs, List.append_nil]

/-- No metadata taken, no status due. -/
theorem due_none {l : Link} {i : LinkIn} (h : l.announced i = none) : l.due i = [] := by
  rw [Link.due, h]
  rfl

/-- An edge at which nothing crosses. -/
theorem story_rest {fs : List Frame} {l : Link} {i : LinkIn} (h : Story fs l)
    (hr : l.released i = none) (hm : l.announced i = none)
    (hs : l.sender.statusLeft (l.pins i) = none)
    (hc : l.sender.crossing (l.pins i) = .quiet)
    (hf : l.sender.flagsNext (l.pins i) = (l.sender.active, l.sender.consumed)) :
    Story fs (l.step i) := by
  have hans := answers_step l i
  rw [hs, due_none hm, List.map_nil, List.append_nil] at hans
  have hitems := released_held l i
  rw [hr] at hitems
  have hact : (l.step i).sender.active = l.sender.active := congrArg Prod.fst hf
  have hcons : (l.step i).sender.consumed = l.sender.consumed := congrArg Prod.snd hf
  have hlog := log_of_quiet hc
  cases h with
  | between done rest split clean active answers ahead log =>
      exact .between done rest split clean (hact.trans active) (hans.trans answers)
        (ahead.step hm hitems) (hlog.trans log)
  | inside done rest f sent left held split clean active words ne items answers consumed ahead log =>
      refine .inside done rest f sent left _ split clean (hact.trans active) words ne ?_
        (hans.trans answers) (hcons.trans consumed) (ahead.step hm rfl) (hlog.trans log)
      rw [← List.append_assoc, ← items]
      exact hitems

/-- **The metadata of the next frame is taken**: all its beats are held. -/
theorem story_announce {fs done rest : List Frame} {l : Link} {i : LinkIn} {m : BitVec 32}
    (split : fs = done ++ rest) (clean : ∀ f ∈ done, f.Clean) (answers : l.answers = [])
    (ahead : Ahead l rest l.sender.payload.items) (log : l.log = done.flatMap (·.crossings))
    (hr : l.released i = none) (hm : l.announced i = some m)
    (hs : l.sender.statusLeft (l.pins i) = none)
    (hc : l.sender.crossing (l.pins i) = ⟨some m, none, none⟩)
    (hf : l.sender.flagsNext (l.pins i) = (true, false)) : Story fs (l.step i) := by
  have hmeta := announced_metadata l i
  rw [hm, ahead.metadata] at hmeta
  cases rest with
  | nil => cases hmeta
  | cons f rest =>
      injection hmeta with hmf hmeta
      subst hmf
      have hpos : 0 < l.sender.payload.items.countP (·.1) := by
        rw [ahead.held_last]
        exact List.length_pos_of_mem (List.mem_of_mem_head? (Fifo.head_of_left hm))
      obtain ⟨held, hheld, hrest⟩ := whole_of_last ahead.payload (List.countP_pos_iff.mp hpos)
      have hitems := released_held l i
      rw [hr, hheld, List.append_assoc] at hitems
      have hans := answers_step l i
      have hdue : l.due i = [f.status] := by
        rw [Link.due, hm, ahead.statuses]
        rfl
      rw [hs, hdue, answers] at hans
      refine .inside done rest f [] f.words _ split clean (congrArg Prod.fst hf) rfl
        (List.append_ne_nil_of_right_ne_nil _ (List.cons_ne_nil _ _)) hitems hans
        (congrArg Prod.snd hf) ⟨?_, hmeta, ?_⟩ ?_
      · rw [List.append_assoc, ← List.map_append, taken_todo]
        exact hrest
      · rw [Link.step, hm, ahead.statuses]
        rfl
      · rw [log_of_crossing hc (by simp [Crossing.quiet]), log]
        rfl

/-- **An edge keeps the story.** -/
theorem story_step {fs : List Frame} {l : Link} (h : Story fs l) (i : LinkIn) :
    Story fs (l.step i) := by
  have hans := answers_step l i
  have hturn := turn_cases l.sender (l.pins i)
  generalize hr : l.sender.payloadLeft (l.pins i) = r at hturn
  generalize hm : l.sender.metadataLeft (l.pins i) = m at hturn
  generalize hs : l.sender.statusLeft (l.pins i) = e at hturn hans
  cases hturn with
  | rest c f => exact story_rest h hr hm hs c f
  | announce a c f =>
      cases h with
      | between done rest split clean active answers ahead log =>
          exact story_announce split clean answers ahead log hr hm hs c f
      | inside _ _ _ _ _ _ _ _ active => rw [a] at active; cases active
  | @first w a u c f =>
      rw [due_none hm, List.map_nil, List.append_nil] at hans
      cases h with
      | between _ _ _ _ active => rw [a] at active; cases active
      | inside done rest g sent left held split clean active words ne items answers consumed ahead log =>
          rw [answers] at hans
          split at hans
          case isFalse => cases hans
          case isTrue hsent =>
            injection hans with hfail hans
            refine story_release split clean words items ahead ne hr hm (fun _ => hsent) ?_ hans ?_
            · rw [f, ← hfail]; simp
            · rw [log_of_crossing c (by simp [Crossing.quiet]), log, hsent, ← hfail]
              simp [traffic]
  | @more w a u c f =>
      rw [due_none hm, List.map_nil, List.append_nil] at hans
      cases h with
      | between _ _ _ _ active => rw [a] at active; cases active
      | inside done rest g sent left held split clean active words ne items answers consumed ahead log =>
          rw [u] at consumed
          obtain ⟨hsent, hfail⟩ := (Bool.and_eq_true ..).mp consumed.symm
          have hsent : sent ≠ [] := by simpa using hsent
          have hfail : g.failed = false := by simpa using hfail
          rw [answers, if_neg hsent] at hans
          refine story_release split clean words items ahead ne hr hm ?_ ?_ hans ?_
          · intro ht; rw [hfail] at ht; cases ht
          · rw [f, hfail]; simp
          · rw [log_of_crossing c (by simp [Crossing.quiet]), log, hfail, traffic_next hsent]
            simp
  | @drop w a u c f =>
      rw [due_none hm, List.map_nil, List.append_nil] at hans
      cases h with
      | between _ _ _ _ active => rw [a] at active; cases active
      | inside done rest g sent left held split clean active words ne items answers consumed ahead log =>
          rw [answers] at hans
          split at hans
          case isFalse => cases hans
          case isTrue hsent =>
            injection hans with hfail hans
            refine story_release split clean words items ahead ne hr hm (fun _ => hsent) ?_ hans ?_
            · rw [f, ← hfail]; simp
            · rw [log_of_crossing c (by simp [Crossing.quiet]), log, hsent, ← hfail]
              simp [traffic]

/-! ## 4. What is left to do -/

/-- Beats to take in and to release, metadata to announce, statuses to return. -/
def Link.work (l : Link) : Nat :=
  2 * l.todo.length + l.sender.payload.items.length + 2 * l.statuses.length + l.owed.length

/-- Nobody stalls. -/
def LinkIn.willing (i : LinkIn) : Bool :=
  i.offer && i.answer && i.metadataTready && i.dataTready && i.status.readable && i.status.writable &&
    i.payload.readable && i.payload.writable && i.metadata.readable && i.metadata.writable

/-- What an edge gets done. -/
def Link.done (l : Link) (i : LinkIn) : Nat :=
  (l.taken i).toList.length + (l.released i).toList.length + (l.announced i).toList.length +
    (l.accepted i).toList.length

/-- A metadata word that is taken has a status. -/
theorem statuses_of_announced {fs : List Frame} {l : Link} (h : Story fs l) {i : LinkIn}
    {m : BitVec 32} (hm : l.announced i = some m) : ∃ w ws, l.statuses = w :: ws := by
  have key : ∀ {rest : List Frame} {held}, Ahead l rest held → ∃ w ws, l.statuses = w :: ws := by
    intro rest held ahead
    have hmeta := announced_metadata l i
    rw [hm, ahead.metadata] at hmeta
    cases rest with
    | nil => cases hmeta
    | cons f rest => exact ⟨_, _, ahead.statuses⟩
  cases h with
  | between _ _ _ _ _ _ ahead => exact key ahead
  | inside _ _ _ _ _ _ _ _ _ _ _ _ _ _ ahead => exact key ahead

/-- **What is done is not left.** -/
theorem work_step {fs : List Frame} {l : Link} (h : Story fs l) (i : LinkIn) :
    (l.step i).work + l.done i = l.work := by
  have htodo := congrArg List.length (taken_todo l i)
  have hheld := congrArg List.length (released_held l i)
  have howed := congrArg List.length (accepted_owed l i)
  rw [List.length_append] at htodo
  rw [List.length_append, List.length_append, List.length_map] at hheld
  rw [List.length_append, List.length_append] at howed
  have hstat : (l.step i).statuses.length + (l.announced i).toList.length = l.statuses.length ∧
      (l.due i).length = (l.announced i).toList.length := by
    cases hm : l.announced i with
    | none =>
        rw [due_none hm, Link.step, hm]
        exact ⟨rfl, rfl⟩
    | some m =>
        obtain ⟨w, ws, hws⟩ := statuses_of_announced h hm
        rw [Link.due, Link.step, hm, hws]
        exact ⟨rfl, rfl⟩
  obtain ⟨hstat, hdue⟩ := hstat
  rw [hdue] at howed
  unfold Link.work Link.done
  omega

section Willing

variable {l : Link} {i : LinkIn}

theorem announced_of {m : BitVec 32} {ms : List (BitVec 32)} (ha : l.sender.active = false)
    (hi : l.sender.metadata.items = m :: ms) (hr : i.metadataTready = true)
    (hp : i.metadata.readable = true) : l.announced i = some m := by
  have hready : l.sender.metadataTready (l.pins i) = true := by
    rw [Sender.metadataTready, ha]
    exact (Bool.and_true _).trans hr
  have hshown : l.sender.metadataTx (l.pins i) = some m := by
    unfold Sender.metadataTx Fifo.shown
    rw [show (l.pins i).metadata = i.metadata from rfl, hp, Fifo.popped_true, hi]
    rfl
  rw [Link.announced, metadataLeft_eq, hready, hshown]
  rfl

theorem taken_of {b : SendBeat} {bs : List SendBeat} (ho : i.offer = true) (ht : l.todo = b :: bs)
    (hm : l.sender.metadata.room i.metadata = true) (hp : l.sender.payload.room i.payload = true) :
    l.taken i = some b := by
  have hready : l.sender.rxTready (l.pins i) = true := (Bool.and_eq_true ..).mpr ⟨hm, hp⟩
  rw [Link.taken, Sender.taken, hready, Link.pins, ho, ht]
  rfl

theorem accepted_of {w : BitVec 64} {ws : List (BitVec 64)} (ha : i.answer = true)
    (ho : l.owed = w :: ws) (hr : l.sender.status.room i.status = true) :
    l.accepted i = some w := by
  rw [Link.accepted, hr, Link.pins, ha, ho]
  rfl

/-- A beat of the frame under way leaves once its status is there, or used up. -/
theorem released_of {w : Bool × BitVec 512} {ws : List (Bool × BitVec 512)}
    (ha : l.sender.active = true) (hi : l.sender.payload.items = w :: ws)
    (hr : i.dataTready = true) (hp : i.payload.readable = true)
    (hs : l.sender.consumed = true ∨ ∃ e, l.sender.statusTx (l.pins i) = some e) :
    l.released i = some w := by
  have hshown : l.sender.payloadTx (l.pins i) = some w := by
    unfold Sender.payloadTx Fifo.shown
    rw [show (l.pins i).payload = i.payload from rfl, hp, Fifo.popped_true, hi]
    rfl
  have hvalid : l.sender.dataValidInst (l.pins i) = true := by
    rw [Sender.dataValidInst, ha, hshown]
    rcases hs with hc | ⟨e, he⟩
    · rw [hc]; rfl
    · rw [he]; simp
  have hready : l.sender.payloadTready (l.pins i) = true := by
    rw [Sender.payloadTready, hvalid]
    split
    · rfl
    · exact (Bool.true_and _).trans hr
  rw [Link.released, payloadLeft_eq, hready, hshown]
  rfl

end Willing

/-- Beats held without a last one are fewer than a frame has. -/
theorem length_part {f : Frame} {held more tail : List (Bool × BitVec 512)}
    (h : held ++ more = f.words ++ tail) (hl : held.countP (·.1) = 0) : held.length < 512 := by
  have hf := f.short
  have hlen := length_words f
  rcases List.append_eq_append_iff.mp h with ⟨cut, hw, -⟩ | ⟨pre, hh, -⟩
  · have hcount := countP_words f
    rw [hw, List.countP_append, hl] at hcount
    have hcut := List.countP_le_length (p := fun w : Bool × BitVec 512 => w.1) (l := cut)
    rw [hw, List.length_append] at hlen
    omega
  · rw [hh, List.countP_append, countP_words] at hl
    omega

/-- **Where nobody stalls, something gets done**, if a failed frame has one beat. -/
theorem done_pos {fs : List Frame} {l : Link} (h : Story fs l) (hclean : ∀ f ∈ fs, f.Clean)
    {i : LinkIn} (hw : i.willing = true) (hwork : l.work ≠ 0) : 0 < l.done i := by
  simp only [LinkIn.willing, Bool.and_eq_true] at hw
  obtain ⟨⟨⟨⟨⟨⟨⟨⟨⟨ho, ha⟩, hmr⟩, hdr⟩, hsr⟩, hsw⟩, hpr⟩, hpw⟩, hmdr⟩, hmw⟩ := hw
  unfold Link.done
  cases h with
  | between done rest split clean active answers ahead log =>
      cases hmeta : l.sender.metadata.items with
      | cons m ms =>
          rw [announced_of active hmeta hmr hmdr, Option.toList_some, List.length_singleton]
          omega
      | nil =>
          have hlast := ahead.held_last
          rw [hmeta] at hlast
          cases htodo : l.todo with
          | nil =>
              have hrest : rest = [] := by
                have h := ahead.metadata
                rw [hmeta, htodo] at h
                exact List.map_eq_nil_iff.mp h.symm
              subst hrest
              have hpay := ahead.payload
              rw [htodo] at hpay
              obtain ⟨-, howed⟩ := List.append_eq_nil_iff.mp answers
              refine absurd ?_ hwork
              rw [Link.work, htodo, ahead.statuses, List.map_eq_nil_iff.mp howed,
                (List.append_eq_nil_iff.mp hpay).1]
              rfl
          | cons b bs =>
              have hroom : l.sender.payload.items.length < 512 := by
                cases rest with
                | nil =>
                    have hpay := ahead.payload
                    rw [htodo] at hpay
                    cases (List.append_eq_nil_iff.mp hpay).2
                | cons f rest => exact length_part ahead.payload hlast
              rw [taken_of ho htodo, Option.toList_some, List.length_singleton]
              · omega
              · exact (Bool.and_eq_true ..).mpr ⟨hmw, Fifo.tready_iff.mpr (by rw [hmeta]; decide)⟩
              · exact (Bool.and_eq_true ..).mpr ⟨hpw, Fifo.tready_iff.mpr hroom⟩
  | inside done rest f sent left held split clean active words ne items answers consumed ahead log =>
      obtain ⟨w, left, rfl⟩ := List.exists_cons_of_ne_nil ne
      by_cases hsent : sent = []
      · rw [if_pos hsent] at answers
        cases hst : l.sender.status.items with
        | cons e es =>
            have hshown : l.sender.statusTx (l.pins i) = some e := by
              unfold Sender.statusTx Fifo.shown
              rw [show (l.pins i).status = i.status from rfl, hsr, Fifo.popped_true, hst]
              rfl
            rw [released_of active items hdr hpr (Or.inr ⟨e, hshown⟩), Option.toList_some,
              List.length_singleton]
            omega
        | nil =>
            rw [Link.answers, hst] at answers
            cases howed : l.owed with
            | nil => rw [howed] at answers; cases answers
            | cons x xs =>
                rw [accepted_of ha howed, Option.toList_some, List.length_singleton]
                · omega
                · exact (Bool.and_eq_true ..).mpr ⟨hsw, Fifo.tready_iff.mpr (by rw [hst]; decide)⟩
      · -- with an error status the frame would be at its end
        have hfail : f.failed = false := by
          rw [Bool.eq_false_iff]
          intro hf
          have hbody := hclean f (by rw [split]; simp) hf
          have hlen := length_words f
          rw [hbody, words, List.length_append, List.length_cons] at hlen
          have := List.length_pos_of_ne_nil hsent
          simp at hlen
          omega
        have hcons : l.sender.consumed = true := by
          rw [consumed, hfail]
          simpa using hsent
        rw [released_of active items hdr hpr (Or.inl hcons), Option.toList_some,
          List.length_singleton]
        omega

/-- **The work drops at every edge where nobody stalls.** -/
theorem work_run {fs : List Frame} (hclean : ∀ f ∈ fs, f.Clean) (is : List LinkIn) :
    (run Link.step (.init fs) is).work ≤ (Link.init fs).work - is.countP LinkIn.willing := by
  have hstep : ∀ m (l : Link) (i : LinkIn), Story fs l ∧ l.work ≤ m → True →
      Story fs (l.step i) ∧ (l.step i).work ≤ if i.willing then m - 1 else m := by
    rintro m l i ⟨hs, hm⟩ -
    refine ⟨story_step hs i, ?_⟩
    have hdone := work_step hs i
    cases hw : i.willing with
    | false =>
        rw [if_neg Bool.false_ne_true]
        omega
    | true =>
        rw [if_pos rfl]
        rcases Nat.eq_zero_or_pos l.work with h0 | hpos
        · omega
        · have := done_pos hs hclean hw (by omega)
          omega
  exact (run_countdown (P := fun m l => Story fs l ∧ l.work ≤ m) (Q := fun _ => True) hstep
    ⟨story_init fs, Nat.le_refl _⟩ is fun _ _ => trivial).2

/-! ## 5. The frames cross -/

theorem story_run (fs : List Frame) (is : List LinkIn) :
    Story fs (run Link.step (.init fs) is) := by
  have hr : Reachable Link.step (fun _ _ => True) (.init fs) (run Link.step (.init fs) is) :=
    Reachable.of_run is (Meets.of_forall (fun _ _ => trivial) _ is)
  exact hr.invariant (story_init fs) fun _ i h _ => story_step h i

theorem traffic_begins (e : Bool) (sent left : List (Bool × BitVec 512)) :
    traffic e sent <+: traffic e (sent ++ left) := by
  cases sent with
  | nil => exact List.nil_prefix
  | cons w ws =>
      cases e with
      | true => exact List.prefix_rfl
      | false =>
          refine ⟨left.map fun w => ⟨none, some w, none⟩, ?_⟩
          simp [traffic]

/-- **What has crossed is the beginning of what has to cross.** -/
theorem log_begins {fs : List Frame} {l : Link} (h : Story fs l) :
    l.log <+: fs.flatMap (·.crossings) := by
  cases h with
  | between done rest split clean active answers ahead log =>
      rw [log, split, List.flatMap_append]
      exact List.prefix_append ..
  | inside done rest f sent left held split clean active words ne items answers consumed ahead log =>
      rw [log, split, List.flatMap_append, List.flatMap_cons, Frame.crossings, words, List.cons_append]
      refine (List.prefix_append_right_inj _).mpr ?_
      refine (List.prefix_cons_inj _).mpr ?_
      exact (traffic_begins f.failed sent left).trans (List.prefix_append ..)

/-- Nothing is left: everything has crossed, and every failed frame had one beat. -/
theorem story_done {fs : List Frame} {l : Link} (h : Story fs l) (hd : l.work = 0) :
    l.log = fs.flatMap (·.crossings) ∧ ∀ f ∈ fs, f.Clean := by
  have hstat : l.statuses = [] := List.length_eq_zero_iff.mp (by unfold Link.work at hd; omega)
  have hpay : l.sender.payload.items = [] :=
    List.length_eq_zero_iff.mp (by unfold Link.work at hd; omega)
  cases h with
  | between done rest split clean active answers ahead log =>
      rw [ahead.statuses] at hstat
      rw [List.map_eq_nil_iff.mp hstat, List.append_nil] at split
      subst split
      exact ⟨log, clean⟩
  | inside done rest f sent left held split clean active words ne items answers consumed ahead log =>
      rw [hpay] at items
      exact absurd (List.append_eq_nil_iff.mp items.symm).1 ne

/-- **The frames are delivered**: in every run what has crossed is the beginning of what has to cross,
    and after enough edges where nobody stalls it is all of it, with nothing left in the sender. -/
def Delivers (fs : List Frame) : Prop :=
  ∀ is : List LinkIn, (run Link.step (.init fs) is).log <+: fs.flatMap (·.crossings) ∧
    ((Link.init fs).work ≤ is.countP LinkIn.willing →
      (run Link.step (.init fs) is).log = fs.flatMap (·.crossings) ∧
        (run Link.step (.init fs) is).work = 0)

theorem delivers_of_clean {fs : List Frame} (hclean : ∀ f ∈ fs, f.Clean) : Delivers fs := by
  intro is
  have hs := story_run fs is
  refine ⟨log_begins hs, fun hn => ?_⟩
  have hzero : (run Link.step (.init fs) is).work = 0 := by
    have := work_run hclean is
    omega
  exact ⟨(story_done hs hzero).1, hzero⟩

theorem crossings_data {fs : List Frame} (hok : ∀ f ∈ fs, f.failed = false) :
    (fs.flatMap (·.crossings)).filterMap (·.data) = fs.flatMap (·.words) := by
  rw [List.filterMap_flatMap]
  refine List.flatMap_congr fun f hf => ?_
  rw [Frame.crossings, hok f hf]
  cases f.words with
  | nil => rfl
  | cons w ws =>
      simp only [traffic, Bool.false_eq_true, if_false, List.filterMap_cons, List.filterMap_map]
      exact congrArg (w :: ·) (List.filterMap_some)

/-- **With healthy connections the frames cross as they are**: the metadata of a frame's last beat,
    after the frame before; then its beats, the first of them with the only status; and the beats are
    those of the frames, with `tlast` as it came in. -/
theorem transmits_frames (fs : List Frame) (hok : ∀ f ∈ fs, f.failed = false) :
    Delivers fs ∧
      (fs.flatMap (·.crossings)).filterMap (·.data) = fs.flatMap (·.words) ∧
      fs.flatMap (·.crossings) = fs.flatMap fun f => ⟨some f.last.1, none, none⟩ ::
        ((f.words.take 1).map fun w => ⟨none, some w, some false⟩) ++
          (f.words.drop 1).map fun w => ⟨none, some w, none⟩ := by
  refine ⟨?_, crossings_data hok, ?_⟩
  · refine delivers_of_clean fun f hf hfail => ?_
    rw [hok f hf] at hfail
    cases hfail
  · refine List.flatMap_congr fun f hf => ?_
    rw [Frame.crossings, hok f hf]
    cases f.words <;> rfl

/-- Everybody is willing. -/
def LinkIn.go : LinkIn := ⟨true, true, true, true, ⟨true, true⟩, ⟨true, true⟩, ⟨true, true⟩⟩

/-- A frame of two beats. -/
def twoBeats (status : BitVec 64) : Frame := ⟨[(1#32, 10#512)], (2#32, 11#512), status, by decide⟩

theorem transmits_frames_two : (∀ f ∈ [twoBeats 0#64, twoBeats 0#64], f.failed = false) ∧
    Delivers [twoBeats 0#64, twoBeats 0#64] :=
  ⟨by decide, (transmits_frames [twoBeats 0#64, twoBeats 0#64] (by decide)).1⟩

/-- **With any statuses the frames are delivered, the failed ones removed, if and only if every failed
    frame has one beat.** The discard branch takes the status with the first beat and does not note it,
    so that a second beat waits for a status that never comes. -/
theorem failed_frame_removed (fs : List Frame) :
    Delivers fs ↔ ∀ f ∈ fs, f.failed = true → f.body = [] := by
  refine ⟨fun h => ?_, fun h => delivers_of_clean h⟩
  let is := List.replicate (Link.init fs).work LinkIn.go
  have hn : (Link.init fs).work ≤ is.countP LinkIn.willing := by
    rw [List.countP_replicate, if_pos (by decide)]
  exact (story_done (story_run fs is) ((h is).2 hn).2).2

/-- The second beat of a frame to a closed connection stays, and nothing behind it is sent. -/
theorem failed_frame_blocks : ¬ Delivers [twoBeats (1#64 <<< 62), twoBeats 0#64] := by
  intro h
  have hwork := ((h (List.replicate 12 LinkIn.go)).2 (by decide)).2
  have hleft : (run Link.step (.init [twoBeats (1#64 <<< 62), twoBeats 0#64])
      (List.replicate 12 LinkIn.go)).work = 5 := by decide +kernel
  rw [hleft] at hwork
  cases hwork

end Frac.Tcp

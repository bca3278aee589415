import ThreeVa.Js.Lemmas.Readable
import ThreeVa.Js.Lemmas.SocketOrder

/-!
What holds of the streams of a script.
-/

namespace ThreeVa.Js
open Text Buffer

/-! ## Decoding -/

namespace StringDecoder

end StringDecoder

/-! ## Readable streams -/

namespace Readable

/-- A character comes in two parts. The listener pauses the stream within its first call. -/
def parts : List Event :=
  [.push (.bytes [0x66, 0xC3]), .returned, .onData, .pause, .returned, .push (.bytes [0xA9]), .returned, .resumeTimer,
    .returned, .returned, .pushNull, .returned, .returned, .returned]

def partsEnd : Readable :=
  { decoder := none, buffer := [], length := 0, ended := true, endEmitted := true, flowing := true, discard := false,
    resumeScheduled := false, listeners := 1, timers := 0, stack := [], pushed := [.bytes [0x66, 0xC3], .bytes [0xA9]],
    handed := [.text [0x66], .text [0xE9]], closed := true, received := [.text [0x66], .text [0xE9]], dropped := [],
    ends := 1 }

theorem exec_parts : Runs.exec step (new "utf8".toList) parts = some partsEnd := by decide +kernel

end Readable

/-! ## Sockets -/

namespace Socket

/-- Two chunks are written, and the connection takes nothing yet. -/
def busy : List Event := [.write (.text [0x66]), .go [.interrupted, .wouldBlock], .write (.text [0xE9])]

def busyEnd : Socket :=
  { new 3 true with
    writing := true
    needDrain := true
    pendingcb := 2
    length := 3
    queue := [⟨.text [0xE9], false⟩]
    retry := some ⟨⟨.text [0x66], false⟩, [], [0x66]⟩
    accepted := [⟨.text [0x66], false⟩, ⟨.text [0xE9], false⟩] }

theorem exec_busy : Runs.exec step (new 3 true) busy = some busyEnd := by decide

/-- The stream is ended, and then the connection takes the second chunk in two parts. -/
def ending : List Event :=
  [.endSocket none, .go [], .retryTimer, .go [.ok 1], .returned, .go [], .go [], .go [.ok 1, .wouldBlock], .finishTimer, .go [],
    .retryTimer, .go [.ok 1], .returned, .go [], .go [], .finishTimer, .go [], .returned, .go [], .returned]

def endingEnd : Socket :=
  { new 3 true with
    writableEnded := true
    shutdownWrite := true
    ended := true
    finished := true
    drains := 1
    accepted := [⟨.text [0x66], false⟩, ⟨.text [0xE9], false⟩]
    log := [⟨⟨.text [0x66], false⟩, [0x66], .sent⟩, ⟨⟨.text [0xE9], false⟩, [0xC3, 0xA9], .sent⟩]
    wire := [0x66, 0xC3, 0xA9] }

theorem exec_ending : Runs.exec step (new 3 true) (busy ++ ending) = some endingEnd := by decide

/-- A write after the end, and the other side's end. -/
def later : List Event := [.write (.text [0x3F]), .readEnd, .returned, .go []]

end Socket

end ThreeVa.Js

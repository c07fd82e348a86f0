import Scriptlet.Text.Basic

/-!
# Output channels

A line is printed to a channel, which sends it to standard output, keeps it in
a buffer, or drops it. Every line ends with a line feed. Clearing a channel
empties its buffer and cannot take back what is on standard output.
-/
namespace Scriptlet

structure ChannelId where
  index : Nat
deriving DecidableEq

inductive Channel where
  | standard
  | silent
  | buffer (held : Text)

namespace Channel

def held : Channel → Text
  | .buffer text => text
  | .standard | .silent => []

def print (line : Text) : Channel → Channel
  | .buffer text => .buffer (text ++ line ++ ['\n'])
  | .standard => .standard
  | .silent => .silent

def clear : Channel → Channel
  | .buffer _ => .buffer []
  | .standard => .standard
  | .silent => .silent

/-- What a line printed to the channel adds to standard output. -/
def echo (line : Text) : Channel → Text
  | .standard => line ++ ['\n']
  | .silent | .buffer _ => []

end Channel

structure Console where
  standard : Text
  channels : Array Channel

namespace Console

def empty : Console := ⟨[], #[]⟩

def attach (c : Console) (channel : Channel) : ChannelId × Console :=
  (⟨c.channels.size⟩, { c with channels := c.channels.push channel })

def held (c : Console) (id : ChannelId) : Text :=
  (c.channels[id.index]?.map Channel.held).getD []

def print (c : Console) (id : ChannelId) (line : Text) : Console where
  standard := c.standard ++ (c.channels[id.index]?.map (Channel.echo line)).getD []
  channels := c.channels.modify id.index (Channel.print line)

def clear (c : Console) (id : ChannelId) : Console :=
  { c with channels := c.channels.modify id.index Channel.clear }

/-- What has reached standard output since an earlier moment. -/
def standardSince (c earlier : Console) : Text := c.standard.drop earlier.standard.length

end Console

end Scriptlet

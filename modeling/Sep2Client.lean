import Sep2Client.Machine
import Sep2Client.Hash.Group
import Sep2Client.Hash.Popcount
import Sep2Client.Hash.Table
import Sep2Client.Hash.Keys
import Sep2Client.Hash.Resize
import Sep2Client.Hash.History
import Sep2Client.Hash.Occupancy
import Sep2Client.Hash.Probe
import Sep2Client.Hash.Refine
import Sep2Client.Hash.Walk
import Sep2Client.Hash.Visit
import Sep2Client.Hash.Erase
import Sep2Client.Der.Registry
import Sep2Client.Der.Defaults
import Sep2Client.Schema.Core
import Sep2Client.Schema.Derive
import Sep2Client.Exi.Parser
import Sep2Client.Exi.Strings
import Sep2Client.Exi.Driver
import Sep2Client.Exi.Reads
import Sep2Client.Exi.Resume
import Sep2Client.Exi.Extend
import Sep2Client.Exi.Protocol
import Sep2Client.Exi.Feed
import Sep2Client.Exi.Bits
import Sep2Client.Exi.Values
import Sep2Client.Exi.Literal
import Sep2Client.Xml.Value
import Sep2Client.Xml.Hex
import Sep2Client.Xml.Agree
import Sep2Client.Xml.Walk
import Sep2Client.Schema.Free

import MqttWire.Queue
import MqttWire.Received
import MqttWire.Request.Reader
import MqttWire.Settings
import MqttWire.Proofs.Fields
import MqttWire.Proofs.FixedHeader
import MqttWire.Proofs.Packet
import MqttWire.Proofs.Rows
import MqttWire.Proofs.Outcome
import MqttWire.Proofs.Digits
import MqttWire.Proofs.ConnectFlags
import MqttWire.Proofs.Reading
import MqttWire.Proofs.Grammar
import MqttWire.Proofs.Received
import MqttWire.Proofs.PrefixFree
import MqttWire.Proofs.AnyPacket
import MqttWire.Proofs.Capacity
import MqttWire.Proofs.Queue
import MqttWire.Proofs.Settings
import MqttWire.Json.Written
import MqttWire.Proofs.Document
import MqttWire.Proofs.Written
import MqttWire.Proofs.Extension
import MqttWire.Proofs.Given
import MqttWire.Json.Standard
import MqttWire.Proofs.Standard
import MqttWire.Proofs.Ignored
import MqttWire.Proofs.Verdict.Basic
import MqttWire.Proofs.Verdict.Connect
import MqttWire.Proofs.Verdict.Subscription
import MqttWire.Proofs.Verdict.Publish
import MqttWire.Proofs.Canonical
import MqttWire.Indexed
import MqttWire.Proofs.Writing
import MqttWire.Proofs.HeaderReading
import MqttWire.Arithmetic
import MqttWire.Connect.Building
import MqttWire.Proofs.Building
import MqttWire.Proofs.SignedSize
import MqttWire.Proofs.Position
import MqttWire.Proofs.Delimited
import MqttWire.Proofs.InStep
import MqttWire.Proofs.Arithmetic.Numbers
import MqttWire.Proofs.Arithmetic.Tapes
